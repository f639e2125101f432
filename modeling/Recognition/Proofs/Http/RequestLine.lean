import Recognition.Http.Message
import Recognition.Proofs.Http.Line

namespace Recognition.Http

open Window

section Target

variable {w v : Window}

theorem notMem_of_sameIgnoringCase {a b : List UInt8} {x : UInt8} (h : sameIgnoringCase a b = true)
    (hx : toLower x ∉ b.map toLower) : x ∉ a := by
  intro ha
  rw [sameIgnoringCase, beq_iff_eq] at h
  exact hx (h ▸ List.mem_map_of_mem ha)

namespace Url

theorem sameLine_port? {n : Nat} (h : port? w = some (n, v)) : v.SameLine w := by
  rw [port?] at h
  split at h
  · obtain ⟨_, rfl⟩ := Prod.mk.inj (Option.some.inj h)
    exact .refl w
  · rename_i u hu
    obtain ⟨_, _, hport⟩ := Option.map_eq_some_iff.1 h
    obtain ⟨_, rfl⟩ := Prod.mk.inj hport
    exact (SameLine.skip (by decide) u).trans (.eat? (by decide) hu)

theorem sameLine_authority? {a : Option Span × Nat} (h : authority? w = some (a, v)) :
    v.SameLine w := by
  rw [authority?] at h
  split at h
  · rename_i hscheme
    simp only [Option.bind_eq_bind, Option.bind_eq_some_iff, Option.pure_def, Option.some.injEq,
      Prod.mk.injEq] at h
    obtain ⟨⟨_, u⟩, hu, ⟨_, x⟩, hx, _, rfl⟩ := h
    have hdrop : (w.drop scheme.length).SameLine w :=
      .drop (notMem_of_sameIgnoringCase hscheme (by decide))
    exact (sameLine_port? hx).trans ((SameLine.run? (by decide) hu).trans hdrop)
  · obtain ⟨_, rfl⟩ := Prod.mk.inj (Option.some.inj h)
    exact .refl w

theorem sameLine_readPath (w : Window) : (readPath w).2.SameLine w :=
  (Reader.keepsLine_runAfter (by decide) (by decide)).many w

end Url

theorem keepsLine_urlParameter : urlParameter.KeepsLine := by
  refine ⟨fun h => ?_⟩
  simp only [urlParameter, Option.bind_eq_bind, Option.bind_eq_some_iff, Option.pure_def,
    Option.some.injEq, Prod.mk.injEq] at h
  obtain ⟨⟨_, u⟩, hu, _, rfl⟩ := h
  exact ((Reader.keepsLine_runAfter (by decide) (by decide)).optional u).trans
    (.run? (by decide) hu)

namespace Url

theorem keepsLine_queryParameter : queryParameter.KeepsLine where
  sameLine {w _ _} h := (keepsLine_urlParameter.sameLine h).trans (.skip (by decide) w)

theorem sameLine_readQuery (w : Window) : (readQuery w).2.SameLine w := by
  rw [readQuery]
  split
  · exact .refl w
  · rename_i v hv
    exact (SameLine.skip (by decide) _).trans
      ((keepsLine_queryParameter.many v).trans (.eat? (by decide) hv))

end Url

theorem url_eq_some {target : Url} (h : url.read w = some (target, v)) :
    v.SameLine w ∧ target.span = w.spanTo v := by
  simp only [url, Option.bind_eq_bind, Option.bind_eq_some_iff] at h
  obtain ⟨⟨_, u⟩, hu, h⟩ := h
  split at h
  · cases h
  · simp only [Option.pure_def, Option.some.injEq, Prod.mk.injEq] at h
    obtain ⟨rfl, rfl⟩ := h
    exact ⟨(Url.sameLine_readQuery _).trans
      ((Url.sameLine_readPath u).trans (Url.sameLine_authority? hu)), rfl⟩

theorem keepsLine_protocol : protocol.KeepsLine := by
  refine ⟨fun {w v p} h => ?_⟩
  simp only [protocol, Option.bind_eq_bind, Option.bind_eq_some_iff, Option.pure_def,
    Option.some.injEq, Prod.mk.injEq] at h
  obtain ⟨u, hu, _, _, _, rfl⟩ := h
  exact ((Reader.keepsLine_runAfter (by decide) (by decide)).optional _).trans
    ((SameLine.skip (by decide) u).trans
      ((SameLine.eat? (by decide) hu).trans (.skip (by decide) w)))

end Target

namespace Request

variable {text : List UInt8} {stop : Option Nat} {r : Request} {i : Nat}

/-- The request names no protocol although its line goes on after the target: at `i`, after white
space within the line, there is a byte that is none. -/
inductive LeavesText (text : List UInt8) (stop : Option Nat) (r : Request) : Nat → Prop
  | intro {blanks rest : List UInt8} {b : UInt8} (hprotocol : r.protocol = none)
    (hrest : (Window.of text r.url.span.stop stop).rest = blanks ++ b :: rest)
    (hblanks : ∀ c ∈ blanks, isSpace c = true ∧ c ≠ Byte.lf) (hb : isSpace b = false) :
    LeavesText text stop r (r.url.span.stop + blanks.length)

theorem leavesText_iff :
    r.LeavesText text stop i ↔
      r.protocol = none ∧
        ∃ v, (Window.of text r.url.span.stop stop).skipInLine? = some v ∧ i = v.pos := by
  constructor
  · rintro @⟨blanks, rest, b, hprotocol, hrest, hblanks, hb⟩
    have htake : (Window.of text r.url.span.stop stop).rest.takeWhile isSpace = blanks := by
      rw [hrest, List.takeWhile_append_of_pos fun c hc => (hblanks c hc).1]
      simp [hb]
    refine ⟨hprotocol, _, skipInLine?_eq_some.2 ⟨rfl, ?_, ?_⟩, ?_⟩
    · rw [htake]
      exact fun hlf => (hblanks _ hlf).2 rfl
    · rw [skip_rest, hrest, List.dropWhile_append_of_pos fun c hc => (hblanks c hc).1]
      simp [hb]
    · rw [skip_pos, count, htake]
      rfl
  · rintro ⟨hprotocol, v, hv, rfl⟩
    obtain ⟨rfl, hlf, hne⟩ := skipInLine?_eq_some.1 hv
    obtain ⟨b, rest, hcons⟩ := List.exists_cons_of_ne_nil hne
    rw [skip_rest] at hcons
    have hsplit : (Window.of text r.url.span.stop stop).rest =
        (Window.of text r.url.span.stop stop).rest.takeWhile isSpace ++ b :: rest := by
      rw [← hcons, List.takeWhile_append_dropWhile]
    rw [skip_pos, count]
    refine .intro hprotocol hsplit ?_ ?_
    · intro c hc
      exact ⟨List.mem_takeWhile_imp hc, fun h => hlf (h ▸ hc)⟩
    · have hhead := List.head_dropWhile_not (p := isSpace) (hcons ▸ List.cons_ne_nil b rest)
      simpa [hcons] using hhead

theorem tail_cases (w : Window) :
    (w.EndsLine (tail w).2.pos ∧ ((tail w).1 = none → w.skipInLine? = none)) ∨
      ((tail w).1 = none ∧ w.skipInLine? = some (tail w).2) := by
  rw [tail]
  split
  · rename_i hlf
    exact .inl ⟨endsLine_skipLine w, fun _ => by simp [skipInLine?, hlf]⟩
  · rename_i hlf
    have hskip : (w.skip isSpace).SameLine w := .skip_of_notMem hlf
    simp only
    split
    · by_cases hrest : (w.skip isSpace).rest = []
      · exact .inl ⟨(EndsLine.of_nil hrest).of_sameLine hskip,
          fun _ => by simp [skipInLine?, hrest]⟩
      · exact .inr ⟨rfl, skipInLine?_eq_some.2 ⟨rfl, hlf, hrest⟩⟩
    · rename_i p u hp
      exact .inl ⟨(endsLine_skipLine u).of_sameLine ((keepsLine_protocol.sameLine hp).trans hskip),
        fun h => by cases h⟩

end Request

theorem exists_of_request {w z : Window} {r : Request} (h : request.read w = some (r, z)) :
    ∃ v x y : Window, w.skipInLine? = some v ∧ (v.skip fun b => !isSpace b).skipInLine? = some x ∧
      url.read x = some (r.url, y) ∧ Request.tail y = (r.protocol, z) ∧
      r.verb = v.spanTo (v.skip fun b => !isSpace b) ∧ r.span = w.spanTo z := by
  simp only [request, Option.bind_eq_bind, Option.bind_eq_some_iff, Option.pure_def,
    Option.some.injEq, Prod.mk.injEq] at h
  obtain ⟨v, hv, x, hx, ⟨target, y⟩, hy, rfl, rfl⟩ := h
  exact ⟨v, x, y, hv, hx, hy, rfl, rfl, rfl⟩

theorem request_eq_some {w z : Window} {r : Request} (h : request.read w = some (r, z)) :
    ∃ y : Window, y.SameLine w ∧ y ≤ w ∧ r.url.span.stop = y.pos ∧
      Request.tail y = (r.protocol, z) ∧ r.span = w.spanTo z := by
  obtain ⟨v, x, y, hv, hx, hy, htail, _, hspan⟩ := exists_of_request h
  obtain ⟨hsame, htarget⟩ := url_eq_some hy
  have hverb : (v.skip fun b => !isSpace b).SameLine v := .skip (by decide) v
  refine ⟨y, ?_, ?_, by rw [htarget]; rfl, htail, hspan⟩
  · exact hsame.trans ((SameLine.skipInLine? hx).trans (hverb.trans (.skipInLine? hv)))
  · exact Window.le_trans (Window.le_of_lt (url.lt hy)) (Window.le_trans (skipInLine?_le hx)
      (Window.le_trans (skip_le _ v) (skipInLine?_le hv)))

/-- A request takes its line up to the end: past the first line feed, or up to the bound or the NUL
if there is none before. Only where text is left on the line does it end before that text, which is
not where the line ends. -/
theorem request_stop {text : List UInt8} {start : Nat} {stop : Option Nat} {r : Request}
    (h : Element.request.parse text start stop = some r) :
    ((∀ i, ¬ r.LeavesText text stop i) → (Window.of text start stop).EndsLine r.span.stop) ∧
      ∀ i, r.LeavesText text stop i →
        r.span.stop = i ∧ ¬ (Window.of text start stop).EndsLine i := by
  obtain ⟨⟨r', z⟩, hread, rfl⟩ := Option.map_eq_some_iff.1 h
  obtain ⟨y, hsame, hle, htarget, htail, hspan⟩ := request_eq_some hread
  have hstop : r'.span.stop = z.pos := by rw [hspan]; rfl
  -- After the target, the request reads what is left of the text there.
  have hy : y = .of text r'.url.span.stop stop := htarget ▸ eq_of_le hle
  have hcases := Request.tail_cases y
  simp only [htail] at hcases
  simp only [Request.leavesText_iff, ← hy, hstop]
  constructor
  · intro hnone
    rcases hcases with ⟨hends, _⟩ | ⟨hprotocol, hv⟩
    · exact hends.of_sameLine hsame
    · exact absurd ⟨hprotocol, z, hv, rfl⟩ (hnone z.pos)
  · rintro i ⟨hprotocol, v, hv, rfl⟩
    rcases hcases with ⟨_, hno⟩ | ⟨_, hz⟩
    · rw [hno hprotocol] at hv
      cases hv
    · obtain rfl : z = v := Option.some.inj (hz.symm.trans hv)
      refine ⟨rfl, fun hends => ?_⟩
      have hzsame := (SameLine.skipInLine? hv).trans hsame
      have hlt := (hzsame.endsLine_iff.2 hends).pos_lt (skipInLine?_eq_some.1 hv).2.2
      omega

/-- What follows the protocol belongs to the line. -/
theorem request_stop_after_protocol :
    ∃ r, Element.request.parse "GET / HTTP/1 x\n".toUTF8.data.toList 0 none = some r ∧
      r.span.stop = 15 ∧ (Window.of "GET / HTTP/1 x\n".toUTF8.data.toList 0 none).EndsLine 15 := by
  have hparse : Element.request.parse "GET / HTTP/1 x\n".toUTF8.data.toList 0 none =
      some ⟨⟨0, 15⟩, ⟨0, 3⟩, ⟨⟨4, 5⟩, none, 80, [⟨5, 5⟩], []⟩,
        some ⟨⟨6, 12⟩, ⟨6, 10⟩, ⟨11, 12⟩, none, 256⟩⟩ := by
    decide +kernel
  refine ⟨_, hparse, rfl, (request_stop hparse).1 ?_⟩
  rintro i ⟨hprotocol, _, _, _⟩
  cases hprotocol

/-- A word after the target that is no protocol is left on the line, and is then read as a header.
-/
theorem request_stop_before_header :
    (∃ r, Element.request.parse "GET / a:b\r\n".toUTF8.data.toList 0 none = some r ∧
      r.span.stop = 6) ∧
      ¬ (Window.of "GET / a:b\r\n".toUTF8.data.toList 0 none).EndsLine 6 ∧
      headers "GET / a:b\r\n".toUTF8.data.toList 6 none = ([⟨⟨6, 11⟩, ⟨6, 7⟩, ⟨8, 9⟩⟩], 11) := by
  refine ⟨⟨⟨⟨0, 6⟩, ⟨0, 3⟩, ⟨⟨4, 5⟩, none, 80, [⟨5, 5⟩], []⟩, none⟩, by decide +kernel, rfl⟩, ?_,
    ?_⟩
  · rw [endsLine_iff]
    decide +kernel
  · decide +kernel

end Recognition.Http

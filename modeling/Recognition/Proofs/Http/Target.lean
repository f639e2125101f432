import Recognition.Proofs.Http.Layout

namespace Recognition.Http

open Window

theorem isControl_of_not_isVisible {b : UInt8} (h : isVisible b = false)
    (hspace : isSpace b = false) : isControl b = true := by
  simpa [isVisible, hspace] using h

namespace Url

variable {u v w : Window} {b : UInt8}

theorem head?_readPath (hne : (readPath w).1 ≠ []) (h : (readPath w).2.rest.head? = some b) :
    isVisible b = false ∨ b = Byte.question := by
  have hslash : b ≠ Byte.slash := by
    rintro rfl
    have hnone : (readPath w).2.eat? Byte.slash = none :=
      Option.map_eq_none_iff.1 (Reader.read_many (Reader.runAfter Byte.slash isSegmentByte) w)
    exact eat?_eq_none.1 hnone h
  have hsegment : isSegmentByte b = false := by
    rcases Reader.many_cases (Reader.runAfter Byte.slash isSegmentByte) w with
      hnil | ⟨u, s, _, hread⟩
    · exact absurd (congrArg Prod.fst hnil) hne
    · obtain ⟨x, _, hrun⟩ := Option.map_eq_some_iff.1 hread
      exact eq_false_of_head?_skip (w := x) (p := isSegmentByte) ((Prod.mk.inj hrun).2 ▸ h)
  simp only [isSegmentByte, Bool.and_eq_false_iff, bne_eq_false_iff_eq] at hsegment
  exact hsegment.resolve_right hslash

theorem head?_urlParameter {p : UrlParameter} (hread : urlParameter.read w = some (p, v))
    (h : v.rest.head? = some b) : b ≠ Byte.equals := by
  simp only [urlParameter, Option.bind_eq_bind, Option.bind_eq_some_iff, Option.pure_def,
    Option.some.injEq, Prod.mk.injEq] at hread
  obtain ⟨⟨_, u⟩, _, _, hv⟩ := hread
  rw [Reader.optional] at hv
  split at hv
  · rename_i hnone
    obtain rfl : u = v := hv
    have heat := eat?_eq_none.1 (Option.map_eq_none_iff.1 hnone)
    rintro rfl
    exact heat h
  · rename_i s x hsome
    obtain ⟨y, _, hrun⟩ := Option.map_eq_some_iff.1 hsome
    obtain rfl : x = v := hv
    have hvalue := eq_false_of_head?_skip (w := y) (p := isValueByte) ((Prod.mk.inj hrun).2 ▸ h)
    rintro rfl
    exact absurd hvalue (by decide)

theorem readQuery_of_eat? (h : w.eat? Byte.question = some v) :
    readQuery w =
      ((queryParameter.many v).1, (queryParameter.many v).2.skip (· == Byte.ampersand)) := by
  simp only [readQuery, h]

theorem urlParameter_eq_none : urlParameter.read w = none ↔ w.run? isNameByte = none := by
  cases h : w.run? isNameByte <;> simp [urlParameter, h]

theorem head?_readQuery (hw : ∀ b, w.rest.head? = some b → isVisible b = false ∨ b = Byte.question)
    (h : (readQuery w).2.rest.head? = some b) :
    isVisible b = false ∨ b = Byte.equals ∧
      ∃ u c, u ≤ w ∧ (c = Byte.question ∨ c = Byte.ampersand) ∧
        u.eat? c = some (readQuery w).2 := by
  cases hx : w.eat? Byte.question with
  | none =>
    have hstay : (readQuery w).2 = w := by simp only [readQuery, hx]
    rw [hstay] at h
    exact (hw b h).imp_right fun hb => absurd (hb ▸ h) (eat?_eq_none.1 hx)
  | some x =>
    rw [readQuery_of_eat? hx] at h ⊢
    simp only at h ⊢
    generalize hy : (queryParameter.many x).2 = y at h ⊢
    have hyw : y ≤ w := hy ▸ Window.le_trans (Reader.many_le _ x) (Window.le_of_lt (eat?_lt hx))
    have hamp : b ≠ Byte.ampersand := by
      rintro rfl
      exact absurd (eq_false_of_head?_skip h) (by decide)
    have hname : isNameByte b = false :=
      run?_eq_none.1 (urlParameter_eq_none.1 (hy ▸ Reader.read_many queryParameter x)) b h
    simp only [isNameByte, Bool.and_eq_false_iff, bne_eq_false_iff_eq] at hname
    rcases hname with (hb | hb) | rfl
    · exact .inl hb
    · exact absurd hb hamp
    -- At `=` no name came before: it follows the `?` itself or the ampersands that were skipped.
    · refine .inr ⟨rfl, ?_⟩
      by_cases hcount : y.count (· == Byte.ampersand) = 0
      · have hskip : y.skip (· == Byte.ampersand) = y := by simp [skip, hcount, drop]
        rw [hskip] at h ⊢
        rcases Reader.many_cases queryParameter x with hnil | ⟨u, p, _, hread⟩
        · obtain rfl : x = y := by rw [← hy, hnil]
          exact ⟨w, _, Window.le_refl w, .inl rfl, hx⟩
        · exact absurd rfl (head?_urlParameter (hy ▸ hread) h)
      · obtain ⟨u, c, hu, hc, heat⟩ := exists_eat?_skip hcount
        exact ⟨u, c, Window.le_trans hu hyw, .inr (by simpa using hc), heat⟩

end Url

theorem head?_url {w v : Window} {target : Url} {b : UInt8}
    (hread : url.read w = some (target, v)) (h : v.rest.head? = some b) :
    isVisible b = false ∨ b = Byte.equals ∧
      ∃ u c, u ≤ w ∧ (c = Byte.question ∨ c = Byte.ampersand) ∧ u.eat? c = some v := by
  simp only [url, Option.bind_eq_bind, Option.bind_eq_some_iff] at hread
  obtain ⟨⟨_, u⟩, hu, hread⟩ := hread
  split at hread
  · cases hread
  · rename_i hne
    simp only [Option.pure_def, Option.some.injEq, Prod.mk.injEq] at hread
    obtain ⟨_, rfl⟩ := hread
    have huw := Url.authority?_le hu
    refine (Url.head?_readQuery (fun b hb => Url.head?_readPath hne hb) h).imp_right ?_
    rintro ⟨hb, x, c, hx, hc, heat⟩
    exact ⟨hb, x, c, Window.le_trans hx
      (Window.le_trans (Window.le_of_lt (Url.readPath_lt hne)) huw), hc, heat⟩

namespace Url

variable {text : List UInt8} {stop : Option Nat} {target : Url}

/-- Neither white space nor the end comes after the target, but a control, or the `=` of a parameter
without a name: one that stands right after the `?` or an `&`. -/
inductive IsCutShort (text : List UInt8) (stop : Option Nat) (target : Url) : Prop
  | control {b : UInt8} {rest : List UInt8}
    (hrest : (Window.of text target.span.stop stop).rest = b :: rest)
    (hcontrol : isControl b = true) (hspace : isSpace b = false)
  | nameless {b : UInt8} {rest : List UInt8}
    (hrest : (Window.of text target.span.stop stop).rest = Byte.equals :: rest)
    (hbefore : text[target.span.stop - 1]? = some b)
    (hb : b = Byte.question ∨ b = Byte.ampersand)

theorem head?_of_isCutShort (h : target.IsCutShort text stop) :
    ∃ b, (Window.of text target.span.stop stop).rest.head? = some b ∧ isSpace b = false := by
  cases h with
  | @control b rest hrest hcontrol hspace => exact ⟨b, by rw [hrest]; rfl, hspace⟩
  | nameless hrest => exact ⟨Byte.equals, by rw [hrest]; rfl, by decide⟩

end Url

theorem Url.not_isCutShort_iff {text : List UInt8} {start : Nat} {stop : Option Nat} {target : Url}
    {w v : Window} (hread : url.read w = some (target, v)) (hw : w ≤ .of text start stop) :
    ¬ target.IsCutShort text stop ↔
      (Window.of text target.span.stop stop).rest = [] ∨
        ∃ b, (Window.of text target.span.stop stop).rest.head? = some b ∧ isSpace b = true := by
  have hstop : target.span.stop = v.pos := by rw [(url_eq_some hread).2]; rfl
  have hv : v = .of text target.span.stop stop :=
    hstop ▸ eq_of_le (Window.le_trans (Window.le_of_lt (url.lt hread)) hw)
  constructor
  · intro hcut
    cases hrest : (Window.of text target.span.stop stop).rest with
    | nil => exact .inl rfl
    | cons b rest =>
      refine .inr ⟨b, rfl, ?_⟩
      by_contra hspace
      rw [Bool.not_eq_true] at hspace
      apply hcut
      have hhead : v.rest.head? = some b := by rw [hv, hrest]; rfl
      rcases head?_url hread hhead with hb | ⟨rfl, u, c, hu, hc, heat⟩
      · exact .control hrest (isControl_of_not_isVisible hb hspace) hspace
      · refine .nameless hrest ?_ hc
        rw [hstop]
        exact getElem?_of_eat? (Window.le_trans hu hw) heat
  · intro hends hcut
    obtain ⟨b, hhead, hspace⟩ := Url.head?_of_isCutShort hcut
    rcases hends with hnil | ⟨c, hc, hcspace⟩
    · simp [hnil] at hhead
    · obtain rfl : b = c := Option.some.inj (hhead.symm.trans hc)
      rw [hspace] at hcspace
      cases hcspace

theorem Request.start_of_tail {w : Window} {p : Protocol} (h : (tail w).1 = some p) :
    p.span.start = (w.skip isSpace).pos ∧ w.rest ≠ [] := by
  rw [tail] at h
  split at h
  · cases h
  · simp only at h
    split at h
    · cases h
    · rename_i q u hread
      obtain rfl : q = p := Option.some.inj h
      have hspan : q.span = (w.skip isSpace).spanTo u := lays_protocol.span hread
      have hlength := Window.length_lt (Http.protocol.lt hread)
      refine ⟨by rw [hspan]; rfl, ?_⟩
      intro hnil
      have hle := Window.length_le (skip_le isSpace w)
      simp only [hnil, List.length_nil] at hle
      omega

/-- White space or the end comes after the target of a request, and nothing but white space, and
some of it, stands between the target and the protocol. The only exception is a target that is cut
short: there the protocol is read right after the target, out of the text that the target left. -/
theorem request_target {text : List UInt8} {start : Nat} {stop : Option Nat} {r : Request}
    (h : Element.request.parse text start stop = some r) :
    (¬ r.url.IsCutShort text stop ↔
      (Window.of text r.url.span.stop stop).rest = [] ∨
        ∃ b, (Window.of text r.url.span.stop stop).rest.head? = some b ∧ isSpace b = true) ∧
    ∀ p, r.protocol = some p →
      (∀ i, r.url.span.stop ≤ i → i < p.span.start → ∃ b, text[i]? = some b ∧ isSpace b = true) ∧
      (r.url.IsCutShort text stop → p.span.start = r.url.span.stop) ∧
      (¬ r.url.IsCutShort text stop → r.url.span.stop < p.span.start) := by
  obtain ⟨⟨r', z⟩, hread, rfl⟩ := Option.map_eq_some_iff.1 h
  obtain ⟨v, x, y, hv, hx, hurl, htail, _, _⟩ := exists_of_request hread
  have hxw : x ≤ .of text start stop := Window.le_trans (skipInLine?_le hx)
    (Window.le_trans (skip_le _ v) (skipInLine?_le hv))
  have hyw := Window.le_trans (Window.le_of_lt (url.lt hurl)) hxw
  have hstop : r'.url.span.stop = y.pos := by rw [(url_eq_some hurl).2]; rfl
  have hy : y = .of text r'.url.span.stop stop := hstop ▸ eq_of_le hyw
  have hcut := Url.not_isCutShort_iff hurl hxw
  refine ⟨hcut, fun p hp => ?_⟩
  obtain ⟨hstart, hne⟩ := Request.start_of_tail (w := y) (p := p) (by rw [htail]; exact hp)
  rw [hstart, hstop]
  refine ⟨fun i hle hlt => exists_getElem?_of_lt_skip hyw hle hlt, fun hshort => ?_,
    fun hshort => ?_⟩
  · obtain ⟨b, hhead, hspace⟩ := Url.head?_of_isCutShort hshort
    rw [← hy] at hhead
    obtain ⟨rest, hrest⟩ := List.head?_eq_some_iff.1 hhead
    simp [skip_pos, count, hrest, hspace]
  · rcases hcut.1 hshort with hnil | ⟨b, hhead, hspace⟩
    · exact absurd (hy ▸ hnil) hne
    · rw [← hy] at hhead
      obtain ⟨rest, hrest⟩ := List.head?_eq_some_iff.1 hhead
      simp [skip_pos, count, hrest, hspace]

/-- Two spaces separate this target from the protocol. -/
theorem request_target_before_spaces :
    ∃ r p, Element.request.parse "GET /?a  HTTP/1.1\n".toUTF8.data.toList 0 none = some r ∧
      r.protocol = some p ∧ r.url.span.stop = 7 ∧ p.span.start = 9 ∧
      ¬ r.url.IsCutShort "GET /?a  HTTP/1.1\n".toUTF8.data.toList none ∧
      r.url.span.stop < p.span.start := by
  have hparse : Element.request.parse "GET /?a  HTTP/1.1\n".toUTF8.data.toList 0 none =
      some ⟨⟨0, 18⟩, ⟨0, 3⟩, ⟨⟨4, 7⟩, none, 80, [⟨5, 5⟩], [⟨⟨6, 7⟩, ⟨6, 7⟩, none⟩]⟩,
        some ⟨⟨9, 17⟩, ⟨9, 13⟩, ⟨14, 15⟩, some ⟨16, 17⟩, 257⟩⟩ := by
    decide +kernel
  obtain ⟨hcut, hprotocol⟩ := request_target hparse
  have hdelimited := hcut.2 (.inr ⟨0x20, by decide +kernel, by decide⟩)
  exact ⟨_, _, hparse, rfl, rfl, rfl, hdelimited, (hprotocol _ rfl).2.2 hdelimited⟩

/-- A parameter without a name cuts the target short, and its value is taken for the protocol. -/
theorem request_target_in_query :
    ∃ r p, Element.request.parse "GET /?=a/1 HTTP/1.1\r\n".toUTF8.data.toList 0 none = some r ∧
      r.protocol = some p ∧ r.url.span = ⟨4, 6⟩ ∧ p.span = ⟨6, 10⟩ ∧ p.version = 0x100 ∧
      ¬ ∃ b, "GET /?=a/1 HTTP/1.1\r\n".toUTF8.data.toList[r.url.span.stop]? = some b ∧
        isSpace b = true := by
  refine ⟨⟨⟨0, 21⟩, ⟨0, 3⟩, ⟨⟨4, 6⟩, none, 80, [⟨5, 5⟩], []⟩,
    some ⟨⟨6, 10⟩, ⟨6, 8⟩, ⟨9, 10⟩, none, 256⟩⟩, _, by decide +kernel, rfl, rfl, rfl, rfl, ?_⟩
  rintro ⟨b, hb, hspace⟩
  obtain rfl : Byte.equals = b := Option.some.inj hb
  cases hspace

end Recognition.Http

import Recognition.Proofs.Http.RequestLine

namespace Recognition

/-- `s` begins and ends before `t`, or ends where `t` begins. -/
structure Span.Before (s t : Span) : Prop where
  start_lt : s.start < t.start
  stop_le : s.stop ≤ t.start

namespace Http

/-- The range of an element, with its parts. -/
inductive Layout where
  | node (span : Span) (parts : List Layout)

namespace Layout

def span : Layout → Span
  | node s _ => s

def leaf (s : Span) : Layout := node s []

@[simp] theorem span_node (s : Span) (parts : List Layout) : (node s parts).span = s := rfl

@[simp] theorem span_leaf (s : Span) : (leaf s).span = s := rfl

/-- All the way down, parts lie in the range of the whole, one after the other. -/
inductive Placed : Layout → Prop
  | node {s : Span} {parts : List Layout} (hle : s.start ≤ s.stop)
    (hparts : ∀ p ∈ parts, p.Placed)
    (hwithin : ∀ p ∈ parts, s.start ≤ p.span.start ∧ p.span.stop ≤ s.stop)
    (hordered : parts.Pairwise fun p q => p.span.Before q.span) : Placed (node s parts)

theorem Placed.le {l : Layout} (h : l.Placed) : l.span.start ≤ l.span.stop := by
  cases h with
  | node hle => exact hle

theorem placed_leaf {s : Span} (h : s.start ≤ s.stop) : (leaf s).Placed :=
  .node h (by simp) (by simp) .nil

/-- The layouts lie between two offsets, one after the other. -/
structure Row (lo hi : Nat) (parts : List Layout) : Prop where
  placed : ∀ p ∈ parts, p.Placed
  within : ∀ p ∈ parts, lo ≤ p.span.start ∧ p.span.stop ≤ hi
  ordered : parts.Pairwise fun p q => p.span.Before q.span

theorem Placed.row {s : Span} {parts : List Layout} (h : (Layout.node s parts).Placed) :
    Row s.start s.stop parts := by
  cases h with
  | node hle hparts hwithin hordered => exact ⟨hparts, hwithin, hordered⟩

namespace Row

variable {lo lo' mid hi hi' : Nat} {p : Layout} {ps qs : List Layout}

theorem nil : Row lo hi [] := ⟨by simp, by simp, .nil⟩

theorem cons (hp : p.Placed) (hlo : lo ≤ p.span.start) (hstart : p.span.start < mid)
    (hstop : p.span.stop ≤ mid) (hhi : p.span.stop ≤ hi) (h : Row mid hi ps) :
    Row lo hi (p :: ps) := by
  have hlater : ∀ q ∈ ps, mid ≤ q.span.start ∧ q.span.stop ≤ hi := h.within
  refine ⟨?_, ?_, ?_⟩
  · rw [List.forall_mem_cons]
    exact ⟨hp, h.placed⟩
  · rw [List.forall_mem_cons]
    refine ⟨⟨hlo, hhi⟩, fun q hq => ?_⟩
    have := hlater q hq
    omega
  · rw [List.pairwise_cons]
    refine ⟨fun q hq => ?_, h.ordered⟩
    have := hlater q hq
    exact ⟨by omega, by omega⟩

theorem single (hp : p.Placed) (hlo : lo ≤ p.span.start) (hhi : p.span.stop ≤ hi) :
    Row lo hi [p] :=
  cons hp hlo (Nat.lt_succ_of_le hp.le) (Nat.le_succ _) hhi nil

theorem mono (h : Row lo hi ps) (hlo : lo' ≤ lo) (hhi : hi ≤ hi') : Row lo' hi' ps := by
  refine ⟨h.placed, fun p hp => ?_, h.ordered⟩
  have := h.within p hp
  omega

theorem ungap (h : Row (lo + 1) hi ps) : Row lo hi ps := h.mono (Nat.le_succ lo) (Nat.le_refl hi)

theorem append (h : Row lo mid ps) (h' : Row (mid + 1) hi qs) (hlo : lo ≤ mid) (hhi : mid ≤ hi) :
    Row lo hi (ps ++ qs) := by
  refine ⟨?_, ?_, ?_⟩
  · rw [List.forall_mem_append]
    exact ⟨h.placed, h'.placed⟩
  · rw [List.forall_mem_append]
    refine ⟨(h.mono (Nat.le_refl _) hhi).within, (h'.mono ?_ (Nat.le_refl _)).within⟩
    omega
  · rw [List.pairwise_append]
    refine ⟨h.ordered, h'.ordered, fun p hp q hq => ?_⟩
    have := h.within p hp
    have := h'.within q hq
    have := (h.placed p hp).le
    exact ⟨by omega, by omega⟩

theorem placed_node {s : Span} (h : Row s.start s.stop ps) (hle : s.start ≤ s.stop) :
    (node s ps).Placed :=
  .node hle h.placed h.within h.ordered

end Row

end Layout

open Layout

open Window

section Layouts

def QuotedString.layout (s : QuotedString) : Layout := node s.span [leaf s.content]

def Value.layout : Value → Layout
  | .quoted s => s.layout
  | .token s => leaf s

def Parameter.layout (p : Parameter) : Layout := node p.span [leaf p.name, p.value.layout]

def CookieParameter.layout (p : CookieParameter) : Layout :=
  node p.span [leaf p.name, p.value.layout]

def MediaRange.layout (m : MediaRange) : Layout := node m.span [leaf m.type, leaf m.subtype]

def MediaType.layout (m : MediaType) : Layout :=
  node m.span (m.range.layout :: m.params.map Parameter.layout)

def UrlParameter.layout (p : UrlParameter) : Layout :=
  node p.span (leaf p.name :: p.value.toList.map leaf)

def Url.layout (u : Url) : Layout :=
  node u.span (u.server.toList.map leaf ++ u.path.map leaf ++ u.params.map UrlParameter.layout)

def Language.layout (l : Language) : Layout := node l.span (l.components.map leaf)

def Cookie.layout (c : Cookie) : Layout :=
  node c.span (leaf c.name :: leaf c.value :: c.params.map CookieParameter.layout)

def Agent.layout (a : Agent) : Layout := node a.span (leaf a.product :: a.version.toList.map leaf)

def Protocol.layout (p : Protocol) : Layout :=
  node p.span (leaf p.name :: leaf p.major :: p.minor.toList.map leaf)

def Request.layout (r : Request) : Layout :=
  node r.span (leaf r.verb :: r.url.layout :: r.protocol.toList.map Protocol.layout)

def Header.layout (h : Header) : Layout := node h.span [leaf h.name, leaf h.value]

def Weighted.layout {α : Type} (f : α → Layout) (x : Weighted α) : Layout :=
  node x.span (x.value.toList.map f ++ x.params.map Parameter.layout)

def Element.layout : (e : Element) → e.Result → Layout
  | .token => leaf
  | .quotedString => QuotedString.layout
  | .value => Value.layout
  | .parameter => Parameter.layout
  | .cookieParameter => CookieParameter.layout
  | .mediaRange => MediaRange.layout
  | .mediaType => MediaType.layout
  | .urlParameter => UrlParameter.layout
  | .url => Url.layout
  | .language => Language.layout
  | .cookie => Cookie.layout
  | .agent => Agent.layout
  | .protocol => Protocol.layout
  | .request => Request.layout
  | .header => Header.layout
  | .weighted e => Weighted.layout e.layout

end Layouts

namespace Reader

variable {α : Type} {r : Reader α} {f : α → Layout} {u v w : Window} {a : α}

/-- A value takes up all that is read for it, and its parts are placed in it. -/
structure Lays (r : Reader α) (f : α → Layout) : Prop where
  span : ∀ {w v : Window} {a : α}, r.read w = some (a, v) → (f a).span = w.spanTo v
  placed : ∀ {w v : Window} {a : α}, r.read w = some (a, v) → (f a).Placed

/-- A value lies in what is read for it, at least `gap` bytes after where reading begins. -/
structure LaysAfter (gap : Nat) (r : Reader α) (f : α → Layout) : Prop where
  placed : ∀ {w v : Window} {a : α}, r.read w = some (a, v) → (f a).Placed
  within : ∀ {w v : Window} {a : α}, r.read w = some (a, v) →
    w.pos + gap ≤ (f a).span.start ∧ (f a).span.start < v.pos + gap ∧ (f a).span.stop ≤ v.pos

theorem Lays.laysAfter (h : r.Lays f) : r.LaysAfter 0 f := by
  refine ⟨h.placed, fun hread => ?_⟩
  have hlt := pos_lt (r.lt hread)
  rw [h.span hread]
  exact ⟨Nat.le_refl _, hlt, Nat.le_refl _⟩

theorem exists_of_after {b : UInt8} (h : (r.after b).read w = some (a, v)) :
    ∃ u, w.eat? b = some u ∧ r.read u = some (a, v) :=
  Option.bind_eq_some_iff.1 h

theorem exists_of_afterFolded {b : UInt8} (h : (r.afterFolded b).read w = some (a, v)) :
    ∃ u, w.skipFolds.eat? b = some u ∧ r.read u.skipFolds = some (a, v) :=
  Option.bind_eq_some_iff.1 h

theorem exists_of_runAfter {b : UInt8} {p : UInt8 → Bool} {s : Span}
    (h : (runAfter b p).read w = some (s, v)) :
    ∃ u, w.eat? b = some u ∧ s = u.spanTo (u.skip p) ∧ v = u.skip p := by
  obtain ⟨u, hu, hrun⟩ := Option.map_eq_some_iff.1 h
  obtain ⟨rfl, rfl⟩ := Prod.mk.inj hrun
  exact ⟨u, hu, rfl, rfl⟩

theorem Lays.after (h : r.Lays f) (b : UInt8) : (r.after b).LaysAfter 1 f := by
  refine ⟨fun hread => ?_, fun hread => ?_⟩ <;>
    obtain ⟨u, hu, hread⟩ := exists_of_after hread
  · exact h.placed hread
  · have hpos := eat?_pos hu
    have hlt := pos_lt (r.lt hread)
    rw [h.span hread]
    simp only [spanTo]
    omega

theorem Lays.afterFolded (h : r.Lays f) (b : UInt8) : (r.afterFolded b).LaysAfter 1 f := by
  refine ⟨fun hread => ?_, fun {w _ _} hread => ?_⟩ <;>
    obtain ⟨u, hu, hread⟩ := exists_of_afterFolded hread
  · exact h.placed hread
  · have hpos := eat?_pos hu
    have hlt := pos_lt (r.lt hread)
    have hw := pos_le (skipFolds_le w)
    have hu := pos_le (skipFolds_le u)
    rw [h.span hread]
    simp only [spanTo]
    omega

theorem lays_run (p : UInt8 → Bool) : (Reader.run p).Lays leaf := by
  have hspan : ∀ {w v : Window} {s : Span}, (Reader.run p).read w = some (s, v) →
      s = w.spanTo v := by
    intro w v s hread
    simp only [Reader.run, run?] at hread
    split at hread
    · cases hread
    · obtain ⟨rfl, rfl⟩ := Prod.mk.inj (Option.some.inj hread)
      rfl
  refine ⟨hspan, fun {w v s} hread => placed_leaf ?_⟩
  rw [hspan hread]
  exact Nat.le_of_lt (pos_lt (Reader.lt _ hread))

theorem laysAfter_runAfter (b : UInt8) (p : UInt8 → Bool) : (runAfter b p).LaysAfter 1 leaf := by
  refine ⟨fun hread => ?_, fun hread => ?_⟩ <;>
    obtain ⟨u, hu, rfl, rfl⟩ := exists_of_runAfter hread
  · exact placed_leaf (pos_le (skip_le p u))
  · have hpos := eat?_pos hu
    have hle := pos_le (skip_le p u)
    simp only [span_leaf, spanTo]
    omega

theorem LaysAfter.row_many {gap : Nat} (h : r.LaysAfter gap f) (w : Window) :
    Row (w.pos + gap) (r.many w).2.pos ((r.many w).1.map f) := by
  fun_induction r.many w with
  | case1 w hr => exact .nil
  | case2 w a v hr rest ih =>
    obtain ⟨hstart, hlt, hstop⟩ := h.within hr
    have hle := pos_le (many_le r v)
    exact .cons (h.placed hr) hstart hlt (Nat.le_add_right_of_le hstop)
      (Nat.le_trans hstop hle) ih

theorem LaysAfter.row_optional {gap : Nat} (h : r.LaysAfter gap f) (w : Window) :
    Row (w.pos + gap) (r.optional w).2.pos ((r.optional w).1.toList.map f) := by
  rw [Reader.optional]
  split
  · exact .nil
  · rename_i a v hr
    obtain ⟨hstart, _, hstop⟩ := h.within hr
    exact .single (h.placed hr) hstart hstop

theorem LaysAfter.row_single {gap : Nat} (h : r.LaysAfter gap f) (hread : r.read w = some (a, v)) :
    Row w.pos v.pos [f a] := by
  obtain ⟨hstart, _, hstop⟩ := h.within hread
  exact .single (h.placed hread) (Nat.le_of_add_right_le hstart) hstop

theorem Lays.row_cons (h : r.Lays f) (hread : r.read w = some (a, v)) (huv : u ≤ v)
    {parts : List Layout} (hparts : Row v.pos u.pos parts) : Row w.pos u.pos (f a :: parts) := by
  have hlt := pos_lt (r.lt hread)
  have hle := pos_le huv
  refine .cons (h.placed hread) ?_ ?_ ?_ ?_ hparts <;> rw [h.span hread] <;>
    simp only [spanTo] <;> omega

theorem Lays.of_row (h : ∀ {w v : Window} {a : α}, r.read w = some (a, v) →
    ∃ parts, f a = node (w.spanTo v) parts ∧ Row w.pos v.pos parts) : r.Lays f := by
  refine ⟨fun hread => ?_, fun {w v a} hread => ?_⟩ <;> obtain ⟨parts, heq, hrow⟩ := h hread
  · rw [heq, span_node]
  · rw [heq]
    exact hrow.placed_node (Nat.le_of_lt (pos_lt (r.lt hread)))

theorem Lays.row_parameters (h : r.Lays f) (w : Window) :
    Row (w.pos + 1) (parameters r w).2.pos ((parameters r w).1.map f) :=
  (h.afterFolded Byte.semicolon).row_many w

end Reader

open Reader

theorem lays_token : token.Lays leaf := lays_run _

theorem lays_quotedString : quotedString.Lays QuotedString.layout := by
  refine .of_row fun {w x s} h => ?_
  simp only [quotedString, Option.bind_eq_bind, Option.bind_eq_some_iff, Option.pure_def,
    Option.some.injEq, Prod.mk.injEq] at h
  obtain ⟨v, hv, n, _, rfl, rfl⟩ := h
  have hvw := pos_le (Window.le_of_lt (eat?_lt hv))
  have hcontent := pos_le (drop_le v n)
  have hquote := pos_le (drop_le (v.drop n) 1)
  exact ⟨_, rfl, .single (placed_leaf hcontent) hvw hquote⟩

theorem lays_value : value.Lays Value.layout := by
  have hcases : ∀ {w v : Window} {x : Value}, value.read w = some (x, v) →
      (∃ s, quotedString.read w = some (s, v) ∧ x = .quoted s) ∨
        ∃ s, token.read w = some (s, v) ∧ x = .token s := by
    intro w v x h
    simp only [value] at h
    split at h
    · rename_i s u hs
      obtain ⟨rfl, rfl⟩ := Prod.mk.inj (Option.some.inj h)
      exact .inl ⟨s, hs, rfl⟩
    · obtain ⟨⟨s, u⟩, hs, h⟩ := Option.map_eq_some_iff.1 h
      obtain ⟨rfl, rfl⟩ := Prod.mk.inj h
      exact .inr ⟨s, hs, rfl⟩
  refine ⟨fun h => ?_, fun h => ?_⟩ <;> rcases hcases h with ⟨s, hs, rfl⟩ | ⟨s, hs, rfl⟩
  · exact lays_quotedString.span hs
  · exact lays_token.span hs
  · exact lays_quotedString.placed hs
  · exact lays_token.placed hs

theorem lays_parameter : parameter.Lays Parameter.layout := by
  refine .of_row fun {w x p} h => ?_
  simp only [parameter, Option.bind_eq_bind, Option.bind_eq_some_iff, Option.pure_def,
    Option.some.injEq, Prod.mk.injEq] at h
  obtain ⟨⟨name, v⟩, hv, ⟨val, u⟩, hu, rfl, rfl⟩ := h
  exact ⟨_, rfl, lays_token.row_cons hv (Window.le_of_lt (Reader.lt _ hu))
    ((lays_value.afterFolded _).row_single hu)⟩

theorem lays_mediaRange : mediaRange.Lays MediaRange.layout := by
  refine .of_row fun {w x m} h => ?_
  simp only [mediaRange, Option.bind_eq_bind, Option.bind_eq_some_iff, Option.pure_def,
    Option.some.injEq, Prod.mk.injEq] at h
  obtain ⟨⟨type, v⟩, hv, ⟨subtype, u⟩, hu, rfl, rfl⟩ := h
  exact ⟨_, rfl, lays_token.row_cons hv (Window.le_of_lt (Reader.lt _ hu))
    ((lays_token.afterFolded _).row_single hu)⟩

theorem lays_mediaType : mediaType.Lays MediaType.layout := by
  refine .of_row fun {w x m} h => ?_
  simp only [mediaType, Option.bind_eq_bind, Option.bind_eq_some_iff, Option.pure_def,
    Option.some.injEq, Prod.mk.injEq] at h
  obtain ⟨⟨range, v⟩, hv, rfl, rfl⟩ := h
  exact ⟨_, rfl, lays_mediaRange.row_cons hv (Reader.many_le _ v)
    (lays_parameter.row_parameters v).ungap⟩

theorem lays_cookieParameter : cookieParameter.Lays CookieParameter.layout := by
  refine .of_row fun {w x p} h => ?_
  simp only [cookieParameter, Option.bind_eq_bind, Option.bind_eq_some_iff, Option.pure_def,
    Option.some.injEq, Prod.mk.injEq] at h
  obtain ⟨⟨p, v⟩, hv, rfl, rfl⟩ := h
  have hafter := lays_parameter.after Byte.dollar
  obtain ⟨hstart, _, hstop⟩ := hafter.within hv
  exact ⟨_, rfl, (hafter.placed hv).row.mono (Nat.le_of_add_right_le hstart) hstop⟩

theorem lays_urlParameter : urlParameter.Lays UrlParameter.layout := by
  refine .of_row fun {w x p} h => ?_
  simp only [urlParameter, Option.bind_eq_bind, Option.bind_eq_some_iff, Option.pure_def,
    Option.some.injEq, Prod.mk.injEq] at h
  obtain ⟨⟨name, v⟩, hv, rfl, rfl⟩ := h
  exact ⟨_, rfl, (lays_run _).row_cons hv (Reader.optional_le _ v)
    ((laysAfter_runAfter _ _).row_optional v).ungap⟩

namespace Url

variable {v w : Window}

theorem row_authority? {server : Option Span} {port : Nat}
    (h : authority? w = some ((server, port), v)) : Row w.pos v.pos (server.toList.map leaf) := by
  rw [authority?] at h
  split at h
  · simp only [Option.bind_eq_bind, Option.bind_eq_some_iff, Option.pure_def, Option.some.injEq,
      Prod.mk.injEq] at h
    obtain ⟨⟨s, u⟩, hu, ⟨_, x⟩, hx, ⟨rfl, _⟩, rfl⟩ := h
    have hrun := lays_run isServerByte
    refine (hrun.row_cons hu (port?_le hx) .nil).mono (pos_le (drop_le w scheme.length)) ?_
    exact Nat.le_refl _
  · obtain ⟨hauthority, rfl⟩ := Prod.mk.inj (Option.some.inj h)
    obtain rfl := (Prod.mk.inj hauthority).1
    exact .nil

theorem laysAfter_queryParameter : queryParameter.LaysAfter 0 UrlParameter.layout := by
  refine ⟨fun h => lays_urlParameter.placed h, fun {w v _} h => ?_⟩
  obtain ⟨hstart, hlt, hstop⟩ := lays_urlParameter.laysAfter.within h
  have hskip := pos_le (skip_le (· == Byte.ampersand) w)
  omega

theorem row_readQuery (w : Window) :
    Row (w.pos + 1) (readQuery w).2.pos ((readQuery w).1.map UrlParameter.layout) := by
  rw [readQuery]
  split
  · exact .nil
  · rename_i v hv
    rw [← eat?_pos hv]
    exact (laysAfter_queryParameter.row_many v).mono (Nat.le_refl _) (pos_le (skip_le _ _))

end Url

theorem lays_url : url.Lays Url.layout := by
  refine .of_row fun {w x target} h => ?_
  simp only [url, Option.bind_eq_bind, Option.bind_eq_some_iff] at h
  obtain ⟨⟨⟨server, port⟩, v⟩, hv, h⟩ := h
  split at h
  · cases h
  · simp only [Option.pure_def, Option.some.injEq, Prod.mk.injEq] at h
    obtain ⟨rfl, rfl⟩ := h
    have hserver := Url.row_authority? hv
    have hpath := (laysAfter_runAfter Byte.slash Url.isSegmentByte).row_many v
    have hquery := Url.row_readQuery (Url.readPath v).2
    have hvw := pos_le (Url.authority?_le hv)
    have hpos := pos_le (Reader.many_le (runAfter Byte.slash Url.isSegmentByte) v)
    have hstop := pos_le (Url.readQuery_le (Url.readPath v).2)
    exact ⟨_, rfl, (hserver.append hpath hvw hpos).append hquery (Nat.le_trans hvw hpos) hstop⟩

theorem lays_language : language.Lays Language.layout := by
  refine .of_row fun {w x l} h => ?_
  simp only [language, Option.bind_eq_bind, Option.bind_eq_some_iff, Option.pure_def,
    Option.some.injEq, Prod.mk.injEq] at h
  obtain ⟨⟨first, v⟩, hv, rfl, rfl⟩ := h
  exact ⟨_, rfl, (lays_run isLetter).row_cons hv (Reader.many_le _ v)
    (((lays_run isLetter).after _).row_many v).ungap⟩

theorem row_run {p : UInt8 → Bool} {w u : Window} (huw : u ≤ w.skip p) {parts : List Layout}
    (hparts : Row ((w.skip p).pos + 1) u.pos parts) :
    Row w.pos u.pos (leaf (w.run p).1 :: parts) := by
  have hskip := pos_le (skip_le p w)
  have hle := pos_le huw
  exact .cons (placed_leaf hskip) (Nat.le_refl _) (Nat.lt_succ_of_le hskip) (Nat.le_succ _) hle
    hparts

theorem lays_agent : agent.Lays Agent.layout := by
  refine .of_row fun {w x a} h => ?_
  simp only [agent] at h
  split at h
  · cases h
  · obtain ⟨rfl, rfl⟩ := Prod.mk.inj (Option.some.inj h)
    exact ⟨_, rfl, row_run (Reader.optional_le _ _)
      ((laysAfter_runAfter _ _).row_optional _)⟩

theorem lays_protocol : protocol.Lays Protocol.layout := by
  refine .of_row fun {w x p} h => ?_
  simp only [protocol, Option.bind_eq_bind, Option.bind_eq_some_iff, Option.pure_def,
    Option.some.injEq, Prod.mk.injEq] at h
  obtain ⟨u, hu, version, _, rfl, rfl⟩ := h
  have hminor := (laysAfter_runAfter Byte.dot fun b => !isSpace b).row_optional
    (u.run fun b => !isSpace b && b != Byte.dot).2
  have hle := Reader.optional_le (runAfter Byte.dot fun b => !isSpace b)
    (u.run fun b => !isSpace b && b != Byte.dot).2
  refine ⟨_, rfl, row_run ?_ ?_⟩
  · exact Window.le_trans hle (Window.le_trans (skip_le _ u) (Window.le_of_lt (eat?_lt hu)))
  · exact (eat?_pos hu) ▸ row_run hle hminor

namespace Cookie

theorem readValue_within (w : Window) :
    w.pos ≤ (readValue w).1.start ∧ (readValue w).1.start ≤ (readValue w).1.stop ∧
      (readValue w).1.stop ≤ (readValue w).2.pos := by
  rw [readValue]
  split
  · rename_i s v hs
    have hspan : s.span = w.spanTo v := lays_quotedString.span hs
    have hrow := (lays_quotedString.placed hs).row
    obtain ⟨hstart, hstop⟩ := hrow.within _ List.mem_cons_self
    rw [hspan] at hstart hstop
    exact ⟨hstart, (hrow.placed _ List.mem_cons_self).le, hstop⟩
  · exact ⟨Nat.le_refl _, pos_le (skip_le _ w), Nat.le_refl _⟩

end Cookie

theorem lays_cookie : cookie.Lays Cookie.layout := by
  refine .of_row fun {w x c} h => ?_
  simp only [cookie, Option.bind_eq_bind, Option.bind_eq_some_iff, Option.pure_def,
    Option.some.injEq, Prod.mk.injEq] at h
  obtain ⟨⟨name, v⟩, hv, u, hu, rfl, rfl⟩ := h
  obtain ⟨hstart, hle, hstop⟩ := Cookie.readValue_within u.skipFolds
  have hparams := lays_cookieParameter.row_parameters (Cookie.readValue u.skipFolds).2
  have hparamsLe := Reader.many_le (cookieParameter.afterFolded Byte.semicolon)
    (Cookie.readValue u.skipFolds).2
  have huv := Window.le_trans (skipFolds_le u)
    (Window.le_trans (Window.le_of_lt (eat?_lt hu)) (skipFolds_le v))
  have hvalueLe := Window.le_trans (Cookie.readValue_le u.skipFolds) huv
  have hpos := pos_le huv
  refine ⟨_, rfl, lays_token.row_cons hv (Window.le_trans hparamsLe hvalueLe) ?_⟩
  refine .cons (placed_leaf hle) ?_ ?_ ?_ ?_ hparams
  · exact Nat.le_trans hpos hstart
  · exact Nat.lt_succ_of_le (Nat.le_trans hle hstop)
  · exact Nat.le_succ_of_le hstop
  · exact Nat.le_trans hstop (pos_le hparamsLe)

namespace Request

theorem row_tail (w : Window) :
    Row w.pos (tail w).2.pos ((tail w).1.toList.map Protocol.layout) := by
  rw [tail]
  split
  · exact .nil
  · simp only
    split
    · exact .nil
    · rename_i p u hp
      have hskip := pos_le (skip_le isSpace w)
      exact (lays_protocol.row_cons hp (Window.le_refl u) .nil).mono hskip (pos_le (skipLine_le u))

end Request

theorem lays_request : request.Lays Request.layout := by
  refine .of_row fun {w z r} h => ?_
  obtain ⟨v, x, y, hv, hx, hy, htail, hverb, hspan⟩ := exists_of_request h
  have hvw := pos_le (skipInLine?_le hv)
  have hxv := pos_le (skipInLine?_le hx)
  have hzy : z ≤ y := by simpa [htail] using Request.tail_le y
  have hprotocol : Row y.pos z.pos (r.protocol.toList.map Protocol.layout) := by
    simpa [htail] using Request.row_tail y
  have hurl := lays_url.row_cons hy hzy hprotocol
  have hstop := pos_le (Window.le_trans hzy (Window.le_of_lt (url.lt hy)))
  -- The verb is not empty: white space was skipped before it, and something is left.
  have hlt : v.pos < (v.skip fun b => !isSpace b).pos := by
    obtain ⟨rfl, _, hne⟩ := skipInLine?_eq_some.1 hv
    obtain ⟨b, bs, hcons⟩ := List.exists_cons_of_ne_nil hne
    have hb : isSpace b = false := eq_false_of_head?_skip (w := w) (by rw [hcons]; rfl)
    rw [skip_pos _ (w.skip isSpace), count, hcons, List.takeWhile_cons_of_pos (by simpa using hb)]
    simp
  refine ⟨_, by rw [Request.layout, hspan], ?_⟩
  rw [hverb]
  refine .cons (placed_leaf (Nat.le_of_lt hlt)) hvw hlt (Nat.le_refl _) ?_ (hurl.mono hxv ?_)
  · exact Nat.le_trans hxv hstop
  · exact Nat.le_refl _

namespace Header

theorem trimmed_within (pos : Nat) (bytes : List UInt8) :
    pos ≤ (trimmed pos bytes).start ∧ (trimmed pos bytes).start ≤ (trimmed pos bytes).stop ∧
      (trimmed pos bytes).stop ≤ pos + bytes.length := by
  have hsum :
      (bytes.takeWhile isSpace).length + (bytes.dropWhile isSpace).length = bytes.length := by
    rw [← List.length_append, List.takeWhile_append_dropWhile]
  have hinner : ((bytes.dropWhile isSpace).reverse.dropWhile isSpace).length ≤
      (bytes.dropWhile isSpace).length := by
    have hreverse :=
      (List.dropWhile_sublist isSpace (l := (bytes.dropWhile isSpace).reverse)).length_le
    rwa [List.length_reverse] at hreverse
  rw [trimmed]
  split
  · simp [Span.empty]
  · simp only
    omega

end Header

theorem lays_header : header.Lays Header.layout := by
  refine .of_row fun {w x h'} h => ?_
  simp only [header, Option.bind_eq_bind] at h
  split at h
  · cases h
  · simp only [Option.bind_eq_some_iff, Option.pure_def, Option.some.injEq, Prod.mk.injEq] at h
    obtain ⟨v, hv, u, hu, rfl, rfl⟩ := h
    have hvalue := Header.trimmed_within u.pos (u.rest.take (Header.lineCount u.rest))
    have hvw := skipInLine?_le hv
    have huv : (w.skip fun b => b != Byte.colon && !isSpace b).pos ≤ v.pos := pos_le hvw
    have hpos := eat?_pos hu
    have hstop : u.pos + (u.rest.take (Header.lineCount u.rest)).length =
        (u.drop (Header.lineCount u.rest)).pos := by
      simp [Window.drop]
    rw [hstop] at hvalue
    refine ⟨_, rfl, row_run ?_ (.single (placed_leaf hvalue.2.1) ?_ hvalue.2.2)⟩
    · exact Window.le_trans (drop_le u _) (Window.le_trans (Window.le_of_lt (eat?_lt hu)) hvw)
    · simp only [span_leaf]
      omega

namespace Weighted

variable {α : Type} {r : Reader α} {f : α → Layout} {w v : Window}

theorem row_valueOrAny (h : r.Lays f) {a : Option α}
    (hread : (valueOrAny r).read w = some (a, v)) : Row w.pos v.pos (a.toList.map f) := by
  simp only [valueOrAny] at hread
  split at hread
  · rename_i b u hb
    obtain ⟨rfl, rfl⟩ := Prod.mk.inj (Option.some.inj hread)
    exact h.row_cons hb (Window.le_refl u) .nil
  · obtain ⟨u, _, hany⟩ := Option.map_eq_some_iff.1 hread
    obtain ⟨rfl, rfl⟩ := Prod.mk.inj hany
    exact .nil

theorem row_attributes (sofar : Weight) (w : Window) (x : Weight × List Parameter × Window)
    (h : attributes sofar w = .ok x) :
    Row (w.pos + 1) x.2.2.pos (x.2.1.map Parameter.layout) := by
  fun_induction attributes sofar w generalizing x with
  | case1 sofar w hv =>
    obtain rfl := Except.ok.inj h
    exact .nil
  | case2 sofar w v hv q hq found u hu hend ih =>
    have hwu := pos_lt (Window.lt_of_le_of_lt (Window.le_of_lt (Http.weight.lt hu))
      (Window.lt_of_le_of_lt (weightName?_le hq) (semicolon?_lt hv)))
    exact (ih x h).mono (Nat.succ_le_succ (Nat.le_of_lt hwu)) (Nat.le_refl _)
  | case3 => cases h
  | case4 => cases h
  | case5 sofar w v hv hq p u hp ih =>
    cases ha : attributes sofar u with
    | error q => simp [ha, Except.map] at h
    | ok y =>
      simp only [ha, Except.map, Except.ok.injEq] at h
      subst h
      have hle := pos_le ((attributes_le sofar u).1 y ha)
      have hwv := pos_lt (semicolon?_lt hv)
      exact (lays_parameter.row_cons hp ((attributes_le sofar u).1 y ha) (ih y ha).ungap).mono hwv
        (Nat.le_refl _)
  | case6 sofar w v hv hq hp =>
    obtain rfl := Except.ok.inj h
    exact .nil

theorem exists_of_item? {a : Weighted α} {u : Window} (h : item? r w = some (.ok (a, u))) :
    ∃ v, (valueOrAny r).read w = some (a.value, v) ∧
      attributes .one v = .ok (a.weight, a.params, u) ∧ a.span = w.spanTo u := by
  obtain ⟨⟨value, v⟩, hv, h⟩ := Option.map_eq_some_iff.1 h
  cases ha : attributes .one v with
  | error q => simp [ha, Except.map] at h
  | ok x =>
    simp only [ha, Except.map, Except.ok.injEq, Prod.mk.injEq] at h
    obtain ⟨rfl, rfl⟩ := h
    exact ⟨v, hv, ha, rfl⟩

theorem item?_of_weighted {a : Weighted α} {u : Window} (h : (weighted r).read w = some (a, u)) :
    item? r w = some (.ok (a, u)) := by
  simp only [weighted] at h
  split at h
  · rename_i hitem
    obtain rfl := Option.some.inj h
    exact hitem
  · cases h

end Weighted

theorem lays_weighted {α : Type} {r : Reader α} {f : α → Layout} (h : r.Lays f) :
    (weighted r).Lays (Weighted.layout f) := by
  refine .of_row fun {w u a} hread => ?_
  obtain ⟨v, hv, ha, hspan⟩ := Weighted.exists_of_item? (Weighted.item?_of_weighted hread)
  have hvw := pos_le (Window.le_of_lt (Reader.lt _ hv))
  have huv := pos_le ((Weighted.attributes_le .one v).1 _ ha)
  refine ⟨_, by rw [Weighted.layout, hspan], ?_⟩
  exact (Weighted.row_valueOrAny h hv).append (Weighted.row_attributes .one v _ ha) hvw huv

namespace Element

theorem lays : (e : Element) → e.reader.Lays e.layout
  | token => lays_token
  | quotedString => lays_quotedString
  | value => lays_value
  | parameter => lays_parameter
  | cookieParameter => lays_cookieParameter
  | mediaRange => lays_mediaRange
  | mediaType => lays_mediaType
  | urlParameter => lays_urlParameter
  | url => lays_url
  | language => lays_language
  | cookie => lays_cookie
  | agent => lays_agent
  | protocol => lays_protocol
  | request => lays_request
  | header => lays_header
  | weighted e => lays_weighted e.lays

theorem span_layout (e : Element) (a : e.Result) : (e.layout a).span = e.span a := by
  cases e <;> try rfl
  cases a <;> rfl

end Element

end Http

end Recognition

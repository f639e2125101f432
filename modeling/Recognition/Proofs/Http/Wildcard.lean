import Recognition.Proofs.Http.Layout
import Recognition.Proofs.Http.Written.Window

namespace Recognition.Http

open Window

namespace Window

variable {text : List UInt8} {start : Nat} {stop : Option Nat} {v : Window} {b : UInt8}

theorem bytes_spanTo_drop {n : Nat} (hn : n ≤ (of text start stop).rest.length) :
    ((of text start stop).spanTo ((of text start stop).drop n)).bytes text =
      (of text start stop).rest.take n := by
  have hstands : StandsAt text start (of text start stop).rest := by
    rw [of_eq]
    exact .of_bytesOf (List.append_nil _).symm
  obtain ⟨later, hlater⟩ := hstands
  have hspan : (of text start stop).spanTo ((of text start stop).drop n) = ⟨start, start + n⟩ := by
    rw [spanTo, drop, Nat.min_eq_left hn]
    rfl
  rw [hspan, Span.bytes, Span.length, Nat.add_sub_cancel_left, ← hlater,
    List.take_append_of_le_length hn]

theorem bytes_spanTo_eq_singleton (hv : v ≤ of text start stop) :
    ((of text start stop).spanTo v).bytes text = [b] ↔
      (of text start stop).rest.head? = some b ∧ v.pos = start + 1 := by
  obtain ⟨n, hn, rfl⟩ := hv
  have hpos : ((of text start stop).drop n).pos = start + n := by
    rw [drop, Nat.min_eq_left hn]
    rfl
  rw [bytes_spanTo_drop hn, hpos, Nat.add_left_cancel_iff]
  constructor
  · intro htake
    have hlength := congrArg List.length htake
    rw [List.length_take, Nat.min_eq_left hn] at hlength
    obtain rfl : n = 1 := hlength
    have hhead := congrArg List.head? htake
    rw [List.head?_take, if_neg Nat.one_ne_zero] at hhead
    exact ⟨hhead, rfl⟩
  · rintro ⟨hhead, rfl⟩
    obtain ⟨bs, hbs⟩ := List.head?_eq_some_iff.1 hhead
    rw [hbs]
    rfl

end Window

namespace Weighted

variable {α : Type} {r : Reader α} {w v : Window}

theorem valueOrAny_cases {o : Option α} (h : (valueOrAny r).read w = some (o, v)) :
    (∃ a, o = some a ∧ r.read w = some (a, v)) ∨
      (o = none ∧ r.read w = none ∧ w.eat? Byte.asterisk = some v) := by
  simp only [valueOrAny] at h
  split at h
  · rename_i a u ha
    obtain ⟨rfl, rfl⟩ := Prod.mk.inj (Option.some.inj h)
    exact .inl ⟨a, rfl, ha⟩
  · rename_i hnone
    obtain ⟨u, hu, h⟩ := Option.map_eq_some_iff.1 h
    obtain ⟨rfl, rfl⟩ := Prod.mk.inj h
    exact .inr ⟨rfl, hnone, hu⟩

variable {e : Element} {text : List UInt8} {start : Nat} {stop : Option Nat}
  {a : Weighted e.Result}

/-- The range of the value of an item. An asterisk that stands for any value takes one byte. -/
def valueSpan (e : Element) (a : Weighted e.Result) : Span :=
  (a.value.map e.span).getD ⟨a.span.start, a.span.start + 1⟩

theorem valueSpan_eq (hread : (valueOrAny e.reader).read w = some (a.value, v))
    (hstart : a.span.start = w.pos) : valueSpan e a = w.spanTo v := by
  rw [valueSpan]
  rcases valueOrAny_cases hread with ⟨x, hvalue, hx⟩ | ⟨hvalue, -, hv⟩
  · rw [hvalue, Option.map_some, Option.getD_some, ← e.span_layout]
    exact e.lays.span hx
  · rw [hvalue, Option.map_none, Option.getD_none, hstart, spanTo, eat?_pos hv]

/-- The lists of what a client accepts: encodings, languages and media ranges. -/
def listed : List Element := [.token, .language, .mediaRange]

theorem token_read_asterisk (hhead : w.rest.head? = some Byte.asterisk) : token.read w ≠ none := by
  intro hnone
  exact absurd (run?_eq_none.1 hnone _ hhead) (by decide)

theorem language_read_asterisk (hhead : w.rest.head? = some Byte.asterisk) :
    language.read w = none := by
  have hletter : w.run? isLetter = none := by
    rw [run?_eq_none]
    intro b hb
    rw [hhead] at hb
    obtain rfl := Option.some.inj hb
    rfl
  simp only [language, hletter]
  rfl

theorem pos_mediaRange {m : MediaRange} (hread : mediaRange.read w = some (m, v)) :
    w.pos + 1 < v.pos := by
  simp only [mediaRange, Option.bind_eq_bind, Option.bind_eq_some_iff, Option.pure_def,
    Option.some.injEq, Prod.mk.injEq] at hread
  obtain ⟨⟨_, u⟩, hu, ⟨_, x⟩, hx, -, rfl⟩ := hread
  have huw : w.pos < u.pos := pos_lt (token.lt hu)
  have hxu : u.pos < x.pos := pos_lt (Reader.lt _ hx)
  exact Nat.lt_of_le_of_lt huw hxu

/-- The value of an item of a list is missing if and only if an asterisk alone stands in its place
and the list is none of tokens, where the asterisk is a value. -/
theorem value_eq_none_iff (he : e ∈ listed)
    (h : (Element.weighted e).parse text start stop = some a) :
    a.value = none ↔ (valueSpan e a).bytes text = [Byte.asterisk] ∧ e ≠ .token := by
  obtain ⟨⟨a', u⟩, hread, rfl⟩ := Option.map_eq_some_iff.1 h
  obtain ⟨v, hv, -, hspan⟩ := exists_of_item? (item?_of_weighted hread)
  have hstart : a'.span.start = (Window.of text start stop).pos := congrArg Span.start hspan
  rw [valueSpan_eq hv hstart, bytes_spanTo_eq_singleton (Window.le_of_lt (Reader.lt _ hv))]
  rcases valueOrAny_cases hv with ⟨x, hvalue, hx⟩ | ⟨hvalue, hnone, hasterisk⟩
  · rw [hvalue]
    simp only [reduceCtorEq, false_iff]
    rintro ⟨⟨hhead, hpos⟩, htoken⟩
    simp only [listed, List.mem_cons, List.not_mem_nil, or_false] at he
    rcases he with rfl | rfl | rfl
    · exact htoken rfl
    · have hnone := language_read_asterisk hhead
      rw [show language.read _ = some (x, v) from hx] at hnone
      cases hnone
    · have hlt := pos_mediaRange hx
      exact absurd hpos (Nat.ne_of_gt hlt)
  · have hhead := (eat?_eq_some.1 hasterisk).1
    simp only [hvalue, true_iff]
    refine ⟨⟨hhead, eat?_pos hasterisk⟩, ?_⟩
    rintro rfl
    exact token_read_asterisk hhead hnone

/-- An asterisk with a weight stands for any media range, and one before a slash does not. -/
theorem value_eq_none_of_asterisk :
    Element.mediaRange ∈ listed ∧
      (∃ a, (Element.weighted .mediaRange).parse "*;q=0.2".toUTF8.data.toList 0 none = some a ∧
        (valueSpan .mediaRange a).bytes "*;q=0.2".toUTF8.data.toList = [Byte.asterisk] ∧
        a.value = none) ∧
      ∃ a, (Element.weighted .mediaRange).parse "*/*".toUTF8.data.toList 0 none = some a ∧
        (valueSpan .mediaRange a).bytes "*/*".toUTF8.data.toList ≠ [Byte.asterisk] ∧
        a.value ≠ none := by
  have hmem : Element.mediaRange ∈ listed := by simp [listed]
  have hany : (Element.weighted .mediaRange).parse "*;q=0.2".toUTF8.data.toList 0 none =
      some ⟨⟨0, 7⟩, none, ⟨200, by decide⟩, []⟩ := by
    decide +kernel
  have hrange : (Element.weighted .mediaRange).parse "*/*".toUTF8.data.toList 0 none =
      some ⟨⟨0, 3⟩, some ⟨⟨0, 3⟩, ⟨0, 1⟩, ⟨2, 3⟩⟩, .one, []⟩ := by
    decide +kernel
  refine ⟨hmem, ⟨_, hany, by decide +kernel, ?_⟩, _, hrange, by decide +kernel, ?_⟩
  · exact (value_eq_none_iff hmem hany).2 ⟨by decide +kernel, by decide⟩
  · intro hnone
    have hbytes := ((value_eq_none_iff hmem hrange).1 hnone).1
    revert hbytes
    decide +kernel

/-- An asterisk alone in a list of tokens does not stand for any token. -/
theorem value_of_token_asterisk :
    ∃ a, (Element.weighted .token).parse [Byte.asterisk] 0 none = some a ∧
      (valueSpan .token a).bytes [Byte.asterisk] = [Byte.asterisk] ∧ a.value = some ⟨0, 1⟩ :=
  ⟨⟨⟨0, 1⟩, some ⟨0, 1⟩, .one, []⟩, by decide +kernel, by decide +kernel, rfl⟩

end Weighted

end Recognition.Http

import Recognition.Proofs.Sgml.Decoding

namespace Recognition.Sgml

/-- Each `&` begins a reference, which is read as far as the text goes, to a glyph with `p`. -/
def AmpsRefer (p : Glyph → Prop) (text : List Char) : Prop :=
  ∀ as bs, text = as ++ '&' :: bs →
    ∃ g, Source.reference? text (Utf8.size as) (Utf8.size text) = some g ∧ p g

/-- A text of references to glyphs with `p` and of characters other than `&`. -/
inductive Referring (p : Glyph → Prop) : List Char → Prop
  | nil : Referring p []
  | plain {c : Char} {cs : List Char} (hc : c ≠ '&') (hcs : Referring p cs) : Referring p (c :: cs)
  | reference {cs rest : List Char} {g : Glyph} (hg : reference? cs = some (g, rest)) (hp : p g)
    (hrest : Referring p rest) : Referring p ('&' :: cs)

variable {p : Glyph → Prop} {text body rest : List Char} {g : Glyph}

theorem reference?_to_end (as bs : List Char) :
    Source.reference? (as ++ '&' :: bs) (Utf8.size as) (Utf8.size (as ++ '&' :: bs)) =
      (reference? bs).map Prod.fst := by
  rw [reference?_append]
  cases hg : reference? bs with
  | none => rfl
  | some r =>
    have hsize := size_of_reference? hg
    have hend : Utf8.size as + r.1.width ≤ Utf8.size (as ++ '&' :: bs) := by
      rw [Utf8.size_append]
      omega
    simp only [Option.map_some, Option.filter_some, hend, decide_true, if_true]

theorem ampsRefer_iff : AmpsRefer p text ↔
    ∀ as bs, text = as ++ '&' :: bs → ∃ g rest, reference? bs = some (g, rest) ∧ p g := by
  have hread (as bs : List Char) : (∃ g, Source.reference? (as ++ '&' :: bs) (Utf8.size as)
      (Utf8.size (as ++ '&' :: bs)) = some g ∧ p g) ↔
        ∃ g rest, reference? bs = some (g, rest) ∧ p g := by
    simp only [reference?_to_end, Option.map_eq_some_iff]
    constructor
    · rintro ⟨_, ⟨⟨g, rest⟩, hg, rfl⟩, hp⟩
      exact ⟨g, rest, hg, hp⟩
    · rintro ⟨g, rest, hg, hp⟩
      exact ⟨g, ⟨(g, rest), hg, rfl⟩, hp⟩
  constructor
  · rintro h as bs rfl
    exact (hread as bs).1 (h as bs rfl)
  · rintro h as bs rfl
    exact (hread as bs).2 (h as bs rfl)

theorem AmpsRefer.of_append (as : List Char) {bs : List Char} (h : AmpsRefer p (as ++ bs)) :
    AmpsRefer p bs := by
  rw [ampsRefer_iff] at h ⊢
  rintro as' bs' rfl
  exact h (as ++ as') bs' (by simp)

theorem amp_notMem_body (h : reference? (body ++ ';' :: rest) = some (g, rest)) :
    '&' ∉ body ++ [';'] := by
  intro hamp
  rcases List.mem_append.1 hamp with hamp | hamp
  · exact absurd (not_endsReference_of_mem_body h _ hamp) (by decide)
  · exact absurd hamp (by decide)

theorem Referring.exists_reference? (h : Referring p text) {as bs : List Char}
    (htext : text = as ++ '&' :: bs) : ∃ g rest, reference? bs = some (g, rest) ∧ p g := by
  induction h generalizing as with
  | nil => simp at htext
  | plain hc hcs ih =>
    cases as with
    | nil => exact absurd (List.cons.inj htext).1 hc
    | cons a as => exact ih (List.cons.inj htext).2
  | @reference cs rest g hg hp hrest ih =>
    cases as with
    | nil =>
      obtain rfl := (List.cons.inj htext).2
      exact ⟨g, rest, hg, hp⟩
    | cons a as =>
      -- A body holds no `&`, so the one that is looked at comes after it.
      obtain ⟨body, rfl, -⟩ := exists_body_of_reference? hg
      have hamp := amp_notMem_body hg
      have hsplit : (body ++ [';']) ++ rest = as ++ '&' :: bs := by
        simpa using (List.cons.inj htext).2
      rcases List.append_eq_append_iff.1 hsplit with ⟨as', -, hafter⟩ | ⟨bs', hbody, hbs⟩
      · exact ih hafter
      · cases bs' with
        | nil =>
          have hrest : rest = [] ++ '&' :: bs := hbs.symm
          exact ih hrest
        | cons b bs' =>
          obtain ⟨rfl, _⟩ := List.cons.inj hbs
          rw [hbody] at hamp
          simp at hamp

theorem referring_iff : Referring p text ↔ AmpsRefer p text := by
  constructor
  · intro h
    rw [ampsRefer_iff]
    intro as bs htext
    exact h.exists_reference? htext
  · intro h
    induction hn : text.length using Nat.strongRecOn generalizing text with
    | ind n ih =>
      cases text with
      | nil => exact .nil
      | cons c cs =>
        by_cases hc : c = '&'
        · rw [hc] at h hn ⊢
          obtain ⟨g, rest, hg, hp⟩ := ampsRefer_iff.1 h [] cs rfl
          obtain ⟨body, rfl, -⟩ := exists_body_of_reference? hg
          have hrest : AmpsRefer p rest := by
            apply AmpsRefer.of_append ('&' :: body ++ [';'])
            simpa using h
          have hlt := length_rest_lt hg
          rw [List.length_cons] at hn
          exact .reference hg hp (ih _ (by omega) hrest rfl)
        · have hcs : AmpsRefer p cs := AmpsRefer.of_append [c] h
          rw [List.length_cons] at hn
          exact .plain hc (ih _ (by omega) hcs rfl)

theorem Referring.append_plain {as : List Char} (has : '&' ∉ as) (h : Referring p rest) :
    Referring p (as ++ rest) := by
  induction as with
  | nil => exact h
  | cons c as ih =>
    rw [List.mem_cons, not_or] at has
    exact .plain (Ne.symm has.1) (ih has.2)

end Recognition.Sgml

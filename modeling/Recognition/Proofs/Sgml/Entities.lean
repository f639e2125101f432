import Recognition.Sgml.Reference

namespace Recognition.Sgml

namespace Entity

/-- The place of the name in alphabetical order, small and capital letters side by side. -/
def rank (e : Entity) : Nat :=
  let padding := List.replicate (8 - e.name.length) '\x00'
  (e.name.map Char.toLower ++ padding ++ e.name ++ padding).foldl (fun n c => n * 256 + c.toNat) 0

/-- The name may stand between `&` and `;`, and a glyph may hold the scalars. -/
structure IsWellFormed (e : Entity) : Prop where
  allowed : ∀ c ∈ e.name, c ≠ ';' ∧ endsReference c = false
  not_number : e.name.head? ≠ some '#'
  length_scalars : e.scalars.length = 1 ∨ e.scalars.length = 2
  no_nul : '\x00' ∉ e.scalars

def isWellFormed (e : Entity) : Bool :=
  e.name.all (fun c => c ≠ ';' && !endsReference c) && e.name.head? ≠ some '#' &&
    (e.scalars.length = 1 || e.scalars.length = 2) && !e.scalars.contains '\x00'

theorem wellFormed_of_eq_true {e : Entity} (h : e.isWellFormed = true) : e.IsWellFormed := by
  simp [isWellFormed] at h
  exact ⟨h.1.1.1, h.1.1.2, h.1.2, h.2⟩

def areRanked : List Entity → Bool
  | d :: e :: es => d.rank < e.rank && areRanked (e :: es)
  | _ => true

theorem pairwise_of_areRanked {es : List Entity} (h : areRanked es = true) :
    es.Pairwise fun d e => d.rank < e.rank := by
  induction es with
  | nil => exact .nil
  | cons d es ih =>
    cases es with
    | nil => exact List.pairwise_singleton _ _
    | cons e es =>
      rw [areRanked, Bool.and_eq_true, decide_eq_true_eq] at h
      have htail := ih h.2
      refine List.Pairwise.cons ?_ htail
      intro x hx
      rcases List.mem_cons.1 hx with rfl | hx
      · exact h.1
      · exact Nat.lt_trans h.1 ((List.pairwise_cons.1 htail).1 x hx)

end Entity

theorem all_isWellFormed : entities.all Entity.isWellFormed = true := by decide +kernel

theorem areRanked_entities : Entity.areRanked entities = true := by decide +kernel

theorem wellFormed_of_mem {e : Entity} (he : e ∈ entities) : e.IsWellFormed :=
  Entity.wellFormed_of_eq_true (List.all_eq_true.1 all_isWellFormed e he)

theorem find?_name {es : List Entity} (h : es.Pairwise fun d e => d.rank < e.rank) {e : Entity}
    (he : e ∈ es) : es.find? (·.name = e.name) = some e := by
  induction es with
  | nil => cases he
  | cons d es ih =>
    rw [List.pairwise_cons] at h
    rcases List.mem_cons.1 he with rfl | hmem
    · simp
    · have hne : d.name ≠ e.name := by
        intro heq
        have hlt := h.1 e hmem
        rw [Entity.rank, Entity.rank, heq] at hlt
        exact Nat.lt_irrefl _ hlt
      rw [List.find?_cons_of_neg (by simpa using hne)]
      exact ih h.2 hmem

theorem scalarsOf?_name {e : Entity} (he : e ∈ entities) : scalarsOf? e.name = some e.scalars := by
  rw [scalarsOf?, find?_name (Entity.pairwise_of_areRanked areRanked_entities) he]
  rfl

theorem nameOf?_sound {scalars name : List Char} (h : nameOf? scalars = some name) :
    Entity.IsWellFormed ⟨name, scalars⟩ ∧ scalarsOf? name = some scalars := by
  obtain ⟨e, he, rfl⟩ := Option.map_eq_some_iff.1 h
  have hmem := List.mem_of_find?_eq_some he
  have hscalars : e.scalars = scalars := by simpa using List.find?_some he
  rw [← hscalars]
  exact ⟨wellFormed_of_mem hmem, scalarsOf?_name hmem⟩

theorem mem_of_scalarsOf? {name scalars : List Char} (h : scalarsOf? name = some scalars) :
    ⟨name, scalars⟩ ∈ entities := by
  obtain ⟨e, he, rfl⟩ := Option.map_eq_some_iff.1 h
  have hname : e.name = name := by simpa using List.find?_some he
  rw [← hname]
  exact List.mem_of_find?_eq_some he

theorem nul_notMem_of_scalarsOf? {name scalars : List Char} (h : scalarsOf? name = some scalars) :
    '\x00' ∉ scalars :=
  (wellFormed_of_mem (mem_of_scalarsOf? h)).no_nul

theorem all_names_ascii : entities.all (fun e => e.name.all (·.toNat < 0x80)) = true := by
  decide +kernel

theorem toNat_lt_of_nameOf? {scalars name : List Char} (h : nameOf? scalars = some name) :
    ∀ c ∈ name, c.toNat < 0x80 := by
  obtain ⟨e, he, rfl⟩ := Option.map_eq_some_iff.1 h
  simpa using List.all_eq_true.1 all_names_ascii e (List.mem_of_find?_eq_some he)

theorem all_names_long :
    entities.all (fun e => Utf8.size e.scalars ≤ Utf8.size e.name + 2) = true := by
  decide +kernel

theorem size_le_of_scalarsOf? {name scalars : List Char} (h : scalarsOf? name = some scalars) :
    Utf8.size scalars ≤ Utf8.size name + 2 := by
  simpa using List.all_eq_true.1 all_names_long _ (mem_of_scalarsOf? h)

theorem all_marks_high :
    entities.all (fun e => e.scalars.tail.all (0x300 ≤ ·.toNat)) = true := by
  decide +kernel

theorem le_of_mem_tail {name scalars : List Char} (h : ⟨name, scalars⟩ ∈ entities) :
    ∀ m ∈ scalars.tail, 0x300 ≤ m.toNat := by
  simpa using List.all_eq_true.1 all_marks_high _ h

theorem nameOf?_amp : nameOf? ['&'] = some ['a', 'm', 'p'] := by decide +kernel

theorem ne_amp_of_nameOf? {c : Char} (h : nameOf? [c] = none) : c ≠ '&' := by
  rintro rfl
  rw [nameOf?_amp] at h
  cases h

end Recognition.Sgml

import Recognition.Proofs.Http.Written.Accepted
import Recognition.Proofs.Http.Written.Weight

namespace Recognition.Http

open Window

/-- White space, perhaps none. -/
structure Gap where
  bytes : List UInt8
  spaces : ∀ b ∈ bytes, isSpace b = true

/-- A semicolon and the white space around it. -/
structure Joint where
  before : Gap
  after : Gap

/-- The name of a weight, a letter in either case, and white space after it. -/
structure WeightName where
  upper : Bool
  after : Gap

/-- What a semicolon introduces. -/
inductive AttributeForm where
  | param (joint : Joint) (p : ParameterForm) (h : p.name.bytes ≠ [0x71] ∧ p.name.bytes ≠ [0x51])
  | weight (joint : Joint) (name : WeightName) (gap : Gap) (a : Weight)

/-- A weight that cannot be read: after any white space, there is none in its value, or something
stands right after it. -/
structure Flaw where
  joint : Joint
  name : WeightName
  value : List UInt8
  value_bytes : ∀ b ∈ value, b ≠ Byte.comma ∧ b ≠ 0
  unreadable : ∀ a v, Http.weight.read ⟨0, value.dropWhile isSpace⟩ = some (a, v) →
    Weighted.endsWeight v = false

/-- An item with the white space around it. -/
structure ItemForm (e : Accepted) where
  lead : Gap
  /-- None is written as an asterisk. -/
  value : Option e.Form
  attributes : List AttributeForm
  flaw : Option Flaw
  trail : Gap

variable {pos : Nat} {rest : List UInt8}

namespace Gap

def none : Gap := ⟨[], by simp⟩

theorem skip_eq (g : Gap) (hrest : Stops isSpace rest) :
    (⟨pos, g.bytes ++ rest⟩ : Window).skip isSpace = ⟨pos + g.bytes.length, rest⟩ :=
  skip_append g.spaces hrest

theorem nul_notMem (g : Gap) : 0 ∉ g.bytes := fun h => absurd (g.spaces 0 h) (by decide)

end Gap

namespace Joint

def bytes (j : Joint) : List UInt8 := j.before.bytes ++ Byte.semicolon :: j.after.bytes

theorem semicolon?_eq (j : Joint) (hrest : Stops isSpace rest) :
    Weighted.semicolon? ⟨pos, j.bytes ++ rest⟩ = some ⟨pos + j.bytes.length, rest⟩ := by
  have hsemicolon : Stops isSpace (Byte.semicolon :: (j.after.bytes ++ rest)) :=
    Stops.cons_iff.2 (by decide)
  rw [bytes, List.append_assoc, List.cons_append, Weighted.semicolon?, j.before.skip_eq hsemicolon,
    eat?_cons, Option.map_some, j.after.skip_eq hrest, List.length_append, List.length_cons]
  simp only [Nat.add_assoc, Nat.add_comm 1]

theorem delimited (j : Joint) (rest : List UInt8) : Delimited (j.bytes ++ rest) := by
  rw [bytes, List.append_assoc]
  exact (Delimited.semicolon _).append j.before.spaces

theorem nul_notMem (j : Joint) : 0 ∉ j.bytes := by
  simp [bytes, Gap.nul_notMem, Byte.semicolon]

end Joint

namespace WeightName

def letter (n : WeightName) : UInt8 := if n.upper then 0x51 else 0x71

def bytes (n : WeightName) : List UInt8 := n.letter :: (n.after.bytes ++ [Byte.equals])

theorem weightName?_eq (n : WeightName) (pos : Nat) (rest : List UInt8) :
    Weighted.weightName? ⟨pos, n.bytes ++ rest⟩ =
      some ((⟨pos + n.bytes.length, rest⟩ : Window).skip isSpace) := by
  have hletter : ((⟨pos, n.letter :: (n.after.bytes ++ Byte.equals :: rest)⟩ : Window).eat? 0x71).or
      ((⟨pos, n.letter :: (n.after.bytes ++ Byte.equals :: rest)⟩ : Window).eat? 0x51) =
        some ⟨pos + 1, n.after.bytes ++ Byte.equals :: rest⟩ := by
    rw [letter]
    cases n.upper <;> rfl
  have hequals : Stops isSpace (Byte.equals :: rest) := Stops.cons_iff.2 (by decide)
  have hbytes : n.bytes ++ rest = n.letter :: (n.after.bytes ++ Byte.equals :: rest) := by
    simp [bytes]
  have hend : pos + 1 + n.after.bytes.length + 1 = pos + n.bytes.length := by
    simp only [bytes, List.length_cons, List.length_append, List.length_nil]
    omega
  rw [hbytes, Weighted.weightName?, hletter]
  simp only [Option.bind_eq_bind, Option.bind_some, n.after.skip_eq hequals, eat?_cons, hend]
  rfl

theorem stops_isSpace (n : WeightName) (rest : List UInt8) : Stops isSpace (n.bytes ++ rest) := by
  refine Stops.cons_iff.2 ?_
  rw [letter]
  cases n.upper <;> rfl

theorem nul_notMem (n : WeightName) : 0 ∉ n.bytes := by
  have hletter : 0 ≠ n.letter := by
    rw [letter]
    cases n.upper <;> decide
  simp [bytes, hletter, Gap.nul_notMem, Byte.equals]

end WeightName

theorem ParameterForm.weightName?_eq_none (p : ParameterForm)
    (h : p.name.bytes ≠ [0x71] ∧ p.name.bytes ≠ [0x51]) (pos : Nat) (rest : List UInt8) :
    Weighted.weightName? ⟨pos, p.bytes ++ rest⟩ = none := by
  -- A parameter of another name names no weight, even if its name begins with the same letter.
  obtain ⟨b, bs, hname⟩ := List.exists_cons_of_ne_nil p.name.ne_nil
  have hbytes : p.bytes ++ rest = b :: (bs ++ (p.valueBytes ++ rest)) := by
    rw [bytes, hname, List.append_assoc, List.cons_append]
  rw [Option.eq_none_iff_forall_ne_some, hbytes]
  intro v hv
  simp only [Weighted.weightName?, Option.bind_eq_bind, Option.bind_eq_some_iff] at hv
  obtain ⟨u, hu, x, hx, -⟩ := hv
  have hletter : (b = 0x71 ∨ b = 0x51) ∧ u = ⟨pos + 1, bs ++ (p.valueBytes ++ rest)⟩ := by
    rcases Option.or_eq_some_iff.1 hu with hu | ⟨-, hu⟩ <;> obtain ⟨hhead, rfl⟩ := eat?_eq_some.1 hu
    · exact ⟨.inl (Option.some.inj hhead), drop_cons _ _ _⟩
    · exact ⟨.inr (Option.some.inj hhead), drop_cons _ _ _⟩
  obtain ⟨hb, rfl⟩ := hletter
  cases bs with
  | nil =>
    rcases hb with rfl | rfl
    · exact h.1 hname
    · exact h.2 hname
  | cons c cs =>
    -- The name goes on, so neither white space nor the equals sign comes next.
    have hc : isTokenByte c = true := p.name.token_bytes c (by simp [hname])
    have hspace : isSpace c = false := isSpace_eq_false (p := isTokenByte) (by decide) hc
    have hequals : c ≠ Byte.equals := by
      rintro rfl
      exact absurd hc (by decide)
    rw [List.cons_append, skip_of_stops (Stops.cons_iff.2 hspace), eat?_eq_some] at hx
    exact hequals (Option.some.inj hx.1)

namespace AttributeForm

def bytes : AttributeForm → List UInt8
  | param j p _ => j.bytes ++ p.bytes
  | weight j n g a => j.bytes ++ (n.bytes ++ (g.bytes ++ a.bytes))

def param? (pos : Nat) : AttributeForm → Option Parameter
  | param j p _ => some (p.param (pos + j.bytes.length))
  | weight .. => none

/-- The weight after the attribute, given the one so far. -/
def weightAfter (sofar : Weight) : AttributeForm → Weight
  | param .. => sofar
  | weight _ _ _ a => a

def params (pos : Nat) (as : List AttributeForm) : List Parameter :=
  (inTurn bytes (fun pos a => a.param? pos) pos as).filterMap id

theorem params_cons (pos : Nat) (a : AttributeForm) (as : List AttributeForm) :
    params pos (a :: as) = (a.param? pos).toList ++ params (pos + a.bytes.length) as := by
  rw [params, inTurn, filterMap_id_cons, params]

theorem delimited (as : List AttributeForm) (hrest : Delimited rest) :
    Delimited (as.flatMap bytes ++ rest) := by
  cases as with
  | nil => exact hrest
  | cons a as =>
    rw [List.flatMap_cons, List.append_assoc]
    cases a with
    | param j p h =>
      rw [bytes, List.append_assoc]
      exact j.delimited _
    | weight j n g a =>
      rw [bytes, List.append_assoc]
      exact j.delimited _

theorem attributes_cons (a : AttributeForm) (sofar : Weight) (pos : Nat) (hrest : Delimited rest) :
    Weighted.attributes sofar ⟨pos, a.bytes ++ rest⟩ =
      (Weighted.attributes (a.weightAfter sofar) ⟨pos + a.bytes.length, rest⟩).map
        fun (found, ps, w) => (found, (a.param? pos).toList ++ ps, w) := by
  cases a with
  | param j p h =>
    have hstops : Stops isSpace (p.bytes ++ rest) := by
      rw [ParameterForm.bytes, List.append_assoc]
      exact p.name.stops_isSpace _
    have hend : pos + j.bytes.length + p.bytes.length = pos + (param j p h).bytes.length := by
      rw [bytes, List.length_append, Nat.add_assoc]
    have hread := p.reads (pos + j.bytes.length) rest (hrest.stops (by decide))
    rw [Weighted.attributes_eq, bytes, List.append_assoc, j.semicolon?_eq hstops]
    simp only [p.weightName?_eq_none h, hread, hend]
    rfl
  | weight j n g a =>
    have hnumeral : Stops isSpace (a.bytes ++ rest) :=
      .append a.bytes_ne_nil fun b hb => isSpace_eq_false (p := isNumeral) (by decide)
        (a.isNumeral_of_mem b (List.mem_of_mem_head? hb))
    have hend : pos + j.bytes.length + n.bytes.length + g.bytes.length + a.bytes.length =
        pos + (weight j n g a).bytes.length := by
      simp only [bytes, List.length_append, Nat.add_assoc]
    have hbytes : (weight j n g a).bytes ++ rest =
        j.bytes ++ (n.bytes ++ (g.bytes ++ (a.bytes ++ rest))) := by
      simp only [bytes, List.append_assoc]
    rw [Weighted.attributes_eq, hbytes, j.semicolon?_eq (n.stops_isSpace _)]
    simp only [n.weightName?_eq, g.skip_eq hnumeral, a.reads _ rest (hrest.stops (by decide)),
      hrest.endsWeight, if_true, hend, weightAfter]
    cases Weighted.attributes a ⟨pos + (weight j n g a).bytes.length, rest⟩ <;> rfl

/-- Attributes are read one after the other: the last weight counts, and the parameters stay in
order. -/
theorem attributes_append (as : List AttributeForm) (sofar : Weight) (pos : Nat)
    (hrest : Delimited rest) :
    Weighted.attributes sofar ⟨pos, as.flatMap bytes ++ rest⟩ =
      (Weighted.attributes (as.foldl weightAfter sofar) ⟨pos + (as.flatMap bytes).length, rest⟩).map
        fun (found, ps, w) => (found, params pos as ++ ps, w) := by
  induction as generalizing sofar pos with
  | nil => cases h : Weighted.attributes sofar ⟨pos, rest⟩ <;> simp [h, Except.map, params, inTurn]
  | cons a as ih =>
    rw [List.flatMap_cons, List.append_assoc, a.attributes_cons sofar pos (delimited as hrest), ih,
      List.length_append, ← Nat.add_assoc, List.foldl_cons, params_cons]
    cases Weighted.attributes (as.foldl weightAfter (a.weightAfter sofar))
      ⟨pos + a.bytes.length + (as.flatMap bytes).length, rest⟩ <;> simp [Except.map]

theorem nul_notMem (a : AttributeForm) : 0 ∉ a.bytes := by
  have hweight : ∀ w : Weight, 0 ∉ w.bytes := fun w h => absurd (w.isNumeral_of_mem 0 h) (by decide)
  cases a with
  | param j p h => simp [bytes, j.nul_notMem, p.nul_notMem]
  | weight j n g a => simp [bytes, j.nul_notMem, n.nul_notMem, g.nul_notMem, hweight]

end AttributeForm

namespace Flaw

def bytes (f : Flaw) : List UInt8 := f.joint.bytes ++ (f.name.bytes ++ f.value)

theorem rest_skip (f : Flaw) (pos : Nat) (hrest : Delimited rest) :
    ∃ p tail, (⟨pos, f.value ++ rest⟩ : Window).skip isSpace =
      ⟨p, f.value.dropWhile isSpace ++ tail⟩ ∧ Stops isNumeral tail := by
  have hleft : ((⟨pos, f.value ++ rest⟩ : Window).skip isSpace).rest =
      (f.value ++ rest).dropWhile isSpace := skip_rest _ _
  rw [List.dropWhile_append] at hleft
  split at hleft
  · -- The value is white space at most, and reading goes on at a delimiter.
    rename_i hempty
    rw [List.isEmpty_iff] at hempty
    rw [hempty]
    refine ⟨_, _, congrArg (Window.mk _) hleft, Stops.mono hrest fun b hb => ?_⟩
    simp only [Bool.and_eq_true, bne_iff_ne]
    constructor <;> rintro rfl <;> exact absurd hb (by decide)
  · exact ⟨_, _, congrArg (Window.mk _) hleft, hrest.stops (by decide)⟩

theorem endsWeight_eq_false (f : Flaw) (pos : Nat) (hrest : Delimited rest) {a : Weight}
    {u : Window}
    (h : Http.weight.read ((⟨pos, f.value ++ rest⟩ : Window).skip isSpace) = some (a, u)) :
    Weighted.endsWeight u = false := by
  obtain ⟨p, tail, hskip, htail⟩ := f.rest_skip pos hrest
  rw [hskip, Weight.read_within p htail, Option.map_eq_some_iff] at h
  obtain ⟨⟨a', v⟩, hv, h⟩ := h
  obtain ⟨-, rfl⟩ := Prod.mk.inj h
  have hends := f.unreadable a' v hv
  -- A byte stands right after the weight already in the value alone.
  cases hbytes : v.rest with
  | nil => simp [Weighted.endsWeight, hbytes] at hends
  | cons b bs => simpa [Weighted.endsWeight, hbytes, append] using hends

theorem attributes_eq (f : Flaw) (sofar : Weight) (pos : Nat) (hrest : Delimited rest) :
    Weighted.attributes sofar ⟨pos, f.bytes ++ rest⟩ =
      .error ((⟨pos + f.joint.bytes.length + f.name.bytes.length, f.value ++ rest⟩ : Window).skip
        isSpace) := by
  rw [Weighted.attributes_eq, bytes, List.append_assoc, List.append_assoc,
    f.joint.semicolon?_eq (f.name.stops_isSpace _)]
  simp only [f.name.weightName?_eq]
  split
  · rename_i hread
    rw [f.endsWeight_eq_false _ hrest hread]
    rfl
  · rfl

theorem nul_notMem (f : Flaw) : 0 ∉ f.bytes := by
  have hvalue : 0 ∉ f.value := fun h => (f.value_bytes 0 h).2 rfl
  simp [bytes, f.joint.nul_notMem, f.name.nul_notMem, hvalue]

end Flaw

/-- White space at most stands before a comma or the end. -/
def EndsItem (rest : List UInt8) : Prop := Stops (· != Byte.comma) (rest.dropWhile isSpace)

namespace EndsItem

theorem delimited (h : EndsItem rest) : Delimited rest :=
  Stops.mono h fun _ hb => (Bool.and_eq_true_iff.1 hb).2

theorem attributes_eq (h : EndsItem rest) (sofar : Weight) :
    Weighted.attributes sofar ⟨pos, rest⟩ = .ok (sofar, [], ⟨pos, rest⟩) := by
  have hnone : Weighted.semicolon? ⟨pos, rest⟩ = none := by
    have hhead : ((⟨pos, rest⟩ : Window).skip isSpace).rest.head? ≠ some Byte.semicolon := by
      rw [skip_rest]
      exact h.head?_ne (by decide)
    rw [Weighted.semicolon?, eat?_eq_none.2 hhead]
    rfl
  rw [Weighted.attributes_eq, hnone]

end EndsItem

namespace ItemForm

variable {e : Accepted} (x : ItemForm e)

def valueBytes : List UInt8 := x.value.elim [Byte.asterisk] e.bytes

def core : List UInt8 :=
  x.valueBytes ++ (x.attributes.flatMap AttributeForm.bytes ++ x.flaw.elim [] Flaw.bytes)

def bytes : List UInt8 := x.lead.bytes ++ (x.core ++ x.trail.bytes)

def weight : Weight := x.attributes.foldl AttributeForm.weightAfter .one

def weighted (pos : Nat) : Weighted e.element.Result where
  span := .over pos x.core
  value := x.value.map (e.place pos)
  weight := x.weight
  params := AttributeForm.params (pos + x.valueBytes.length) x.attributes

theorem reads_value :
    (Weighted.valueOrAny e.element.reader).Reads Delimited x.valueBytes
      (fun pos => x.value.map (e.place pos)) := by
  intro pos rest hrest
  rw [valueBytes, Weighted.valueOrAny]
  cases x.value with
  | none =>
    simp only [Option.elim_none, List.singleton_append, e.read_asterisk hrest, eat?_cons]
    rfl
  | some v =>
    simp only [Option.elim_some, e.reads v pos rest hrest]
    rfl

theorem item?_of_none (hflaw : x.flaw = none) (pos : Nat) (hrest : EndsItem rest) :
    Weighted.item? e.element.reader ⟨pos, x.core ++ rest⟩ =
      some (.ok (x.weighted pos, ⟨pos + x.core.length, rest⟩)) := by
  have hcore : x.core ++ rest =
      x.valueBytes ++ (x.attributes.flatMap AttributeForm.bytes ++ rest) := by
    simp [core, hflaw]
  have hend : pos + x.valueBytes.length + (x.attributes.flatMap AttributeForm.bytes).length =
      pos + x.core.length := by
    simp [core, hflaw, Nat.add_assoc]
  have hattributes := AttributeForm.delimited x.attributes hrest.delimited
  have hread := AttributeForm.attributes_append x.attributes .one (pos + x.valueBytes.length)
    hrest.delimited
  rw [hrest.attributes_eq, hend] at hread
  simp only [Weighted.item?, hcore, x.reads_value pos _ hattributes, Option.map_some, hread,
    Except.map, List.append_nil]
  rfl

/-- Where the weight that cannot be read stands. -/
def flawAt (f : Flaw) (pos : Nat) (rest : List UInt8) : Window :=
  (⟨pos + x.valueBytes.length + (x.attributes.flatMap AttributeForm.bytes).length +
    f.joint.bytes.length + f.name.bytes.length, f.value ++ rest⟩ : Window).skip isSpace

theorem item?_of_some {f : Flaw} (hflaw : x.flaw = some f) (pos : Nat) (hrest : EndsItem rest) :
    Weighted.item? e.element.reader ⟨pos, x.core ++ rest⟩ =
      some (.error (x.flawAt f pos rest)) := by
  have hcore : x.core ++ rest =
      x.valueBytes ++ (x.attributes.flatMap AttributeForm.bytes ++ (f.bytes ++ rest)) := by
    simp [core, hflaw]
  have hdelimited : Delimited (f.bytes ++ rest) := by
    rw [Flaw.bytes, List.append_assoc]
    exact f.joint.delimited _
  have hattributes := AttributeForm.delimited x.attributes hdelimited
  have hread := AttributeForm.attributes_append x.attributes .one (pos + x.valueBytes.length)
    hdelimited
  rw [f.attributes_eq _ _ hrest.delimited] at hread
  simp only [Weighted.item?, hcore, x.reads_value pos _ hattributes, Option.map_some, hread,
    Except.map]
  rfl

theorem stops_core (rest : List UInt8) :
    Stops (fun b => isSpace b || b == Byte.comma) (x.core ++ rest) := by
  rw [core, valueBytes, List.append_assoc]
  cases x.value with
  | none => exact Stops.cons_iff.2 (by decide)
  | some v => exact e.stops_bytes v _

theorem nul_notMem : 0 ∉ x.bytes := by
  have hvalue : 0 ∉ x.valueBytes := by
    rw [valueBytes]
    cases x.value with
    | none => exact (by decide : 0 ∉ [Byte.asterisk])
    | some v => exact e.nul_notMem v
  have hattributes : 0 ∉ x.attributes.flatMap AttributeForm.bytes := by
    rw [List.mem_flatMap]
    rintro ⟨a, -, ha⟩
    exact a.nul_notMem ha
  have hflaw : 0 ∉ x.flaw.elim [] Flaw.bytes := by
    cases x.flaw with
    | none => exact List.not_mem_nil
    | some f => exact f.nul_notMem
  simp [bytes, core, x.lead.nul_notMem, x.trail.nul_notMem, hvalue, hattributes, hflaw]

end ItemForm

end Recognition.Http

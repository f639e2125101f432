import Mathlib.Algebra.BigOperators.Group.List.Basic
import Mathlib.Data.Nat.Digits.Lemmas
import Recognition.Http.Product
import Recognition.Http.Url
import Recognition.Http.Weight

namespace Recognition.Http

variable {b : UInt8} {digits : List UInt8} {m n k : Nat}

def digitValue (b : UInt8) : Nat := b.toNat - 0x30

/-- The number that digits write, each worth ten times as much as the one after it. -/
def placeValue (digits : List UInt8) : Nat := Nat.ofDigits 10 (digits.map digitValue).reverse

def decimalFrom (n : Nat) (digits : List UInt8) : Nat :=
  digits.foldl (fun n b => n * 10 + digitValue b) n

theorem decimalFrom_cons (n : Nat) (b : UInt8) (digits : List UInt8) :
    decimalFrom n (b :: digits) = decimalFrom (n * 10 + digitValue b) digits :=
  List.foldl_cons ..

theorem placeValue_cons (b : UInt8) (digits : List UInt8) :
    placeValue (b :: digits) = digitValue b * 10 ^ digits.length + placeValue digits := by
  unfold placeValue
  rw [List.map_cons, List.reverse_cons, Nat.ofDigits_append, Nat.ofDigits_singleton,
    List.length_reverse, List.length_map]
  ring

theorem placeValue_replicate_zero (k : Nat) : placeValue (List.replicate k 0x30) = 0 := by
  induction k with
  | zero => rfl
  | succ k ih =>
    rw [List.replicate_succ, placeValue_cons, ih, show digitValue 0x30 = 0 from rfl]
    omega

theorem decimalFrom_eq (n : Nat) (digits : List UInt8) :
    decimalFrom n digits = n * 10 ^ digits.length + placeValue digits := by
  induction digits generalizing n with
  | nil => simp [decimalFrom, placeValue]
  | cons b bs ih =>
    rw [decimalFrom_cons, ih, placeValue_cons, List.length_cons, pow_succ]
    ring

theorem decimal_eq_placeValue (digits : List UInt8) : decimal digits = placeValue digits := by
  change decimalFrom 0 digits = placeValue digits
  rw [decimalFrom_eq, zero_mul, zero_add]

theorem le_decimalFrom (n : Nat) (digits : List UInt8) : n ≤ decimalFrom n digits := by
  rw [decimalFrom_eq]
  have hone : 1 ≤ 10 ^ digits.length := Nat.one_le_pow _ _ (by omega)
  have hmul : n * 1 ≤ n * 10 ^ digits.length := Nat.mul_le_mul_left n hone
  omega

theorem toNat_sub_zero (h : isDigit b = true) : (b - 0x30).toNat = digitValue b := by
  simp only [isDigit, Bool.and_eq_true, decide_eq_true_eq] at h
  exact UInt8.toNat_sub_of_le b 0x30 h.1

theorem digitValue_le (h : isDigit b = true) : digitValue b ≤ 9 := by
  simp only [isDigit, Bool.and_eq_true, decide_eq_true_eq, UInt8.le_iff_toNat_le] at h
  have hnine : UInt8.toNat 0x39 = 0x39 := rfl
  unfold digitValue
  omega

section Checked

/-- The number as a word of 16 bits, if it fits. -/
def halfWord? (n : Nat) : Option UInt16 := if n < UInt16.size then some (.ofNat n) else none

def checkedAdd? (a b : UInt16) : Option UInt16 := halfWord? (a.toNat + b.toNat)

def checkedMul? (a b : UInt16) : Option UInt16 := halfWord? (a.toNat * b.toNat)

def checkedStep? (n : UInt16) (b : UInt8) : Option UInt16 := do
  let tens ← checkedMul? n 10
  checkedAdd? tens (b - 0x30).toUInt16

def checkedDecimal? (digits : List UInt8) : Option UInt16 := digits.foldlM checkedStep? 0

def checkedPort? (digits : List UInt8) : Option UInt16 :=
  if digits = [] then some 80 else checkedDecimal? digits

def IsNumber (digits : List UInt8) : Prop := digits ≠ [] ∧ digits.all isDigit = true

instance (digits : List UInt8) : Decidable (IsNumber digits) :=
  inferInstanceAs (Decidable (_ ∧ _))

def checkedNumber? (digits : List UInt8) : Option UInt16 :=
  if IsNumber digits then checkedDecimal? digits else none

def checkedVersion? (major : List UInt8) (minor : Option (List UInt8)) : Option UInt16 := do
  let m ← checkedNumber? major
  let n ← (minor.map checkedNumber?).getD (some 0)
  checkedAdd? (← checkedMul? m 0x100) n

theorem halfWord?_of_lt (h : n < UInt16.size) : ∃ w, halfWord? n = some w ∧ w.toNat = n :=
  ⟨.ofNat n, if_pos h, UInt16.toNat_ofNat_of_lt h⟩

theorem halfWord?_of_le (h : UInt16.size ≤ n) : halfWord? n = none := if_neg (by omega)

theorem map_toNat_halfWord? (n : Nat) :
    (halfWord? n).map UInt16.toNat = if n ≤ 65535 then some n else none := by
  by_cases hle : n ≤ 65535
  · obtain ⟨w, hw, hn⟩ := halfWord?_of_lt (Nat.lt_succ_of_le hle)
    rw [if_pos hle, hw, Option.map_some, hn]
  · rw [if_neg hle, halfWord?_of_le (Nat.lt_of_not_le hle), Option.map_none]

theorem halfWord?_toNat (w : UInt16) : halfWord? w.toNat = some w := by
  unfold halfWord?
  rw [if_pos w.toNat_lt_size, UInt16.ofNat_toNat]

theorem halfWord?_bind {f : UInt16 → Option UInt16} (hle : m ≤ n)
    (h : ∀ w : UInt16, w.toNat = m → f w = halfWord? n) : (halfWord? m).bind f = halfWord? n := by
  by_cases hm : m < UInt16.size
  · obtain ⟨w, hw, hn⟩ := halfWord?_of_lt hm
    rw [hw, Option.bind_some, h w hn]
  · rw [halfWord?_of_le (by omega), halfWord?_of_le (by omega), Option.bind_none]

theorem checkedStep?_eq (n : UInt16) (h : isDigit b = true) :
    checkedStep? n b = halfWord? (n.toNat * 10 + digitValue b) := by
  unfold checkedStep? checkedMul?
  apply halfWord?_bind (Nat.le_add_right _ _)
  intro w hw
  unfold checkedAdd?
  rw [UInt8.toNat_toUInt16, toNat_sub_zero h, hw]

/-- The checks along the way find exactly the overflow of the number itself. -/
theorem foldlM_checkedStep? (n : UInt16) (h : ∀ d ∈ digits, isDigit d = true) :
    digits.foldlM checkedStep? n = halfWord? (decimalFrom n.toNat digits) := by
  induction digits generalizing n with
  | nil => exact (halfWord?_toNat n).symm
  | cons b bs ih =>
    rw [List.forall_mem_cons] at h
    rw [List.foldlM_cons, checkedStep?_eq n h.1, decimalFrom_cons]
    apply halfWord?_bind (le_decimalFrom _ _)
    intro w hw
    rw [ih w h.2, hw]

theorem checkedDecimal?_eq (h : ∀ d ∈ digits, isDigit d = true) :
    checkedDecimal? digits = halfWord? (placeValue digits) := by
  unfold checkedDecimal?
  rw [foldlM_checkedStep? 0 h, decimalFrom_eq]
  congr 1
  exact (congrArg (· + placeValue digits) (Nat.zero_mul _)).trans (Nat.zero_add _)

/-- What digits make as a port, however great, the usual one if there are none. -/
def Url.portValue (digits : List UInt8) : Nat := if digits = [] then 80 else placeValue digits

theorem Url.portOf?_eq (digits : List UInt8) :
    portOf? digits = if portValue digits ≤ 65535 then some (portValue digits) else none := by
  unfold portOf? portValue
  by_cases hnil : digits = []
  · rw [if_pos hnil, if_pos hnil]
    rfl
  · rw [if_neg hnil, if_neg hnil, decimal_eq_placeValue]
    rfl

theorem checkedPort?_eq (h : ∀ d ∈ digits, isDigit d = true) :
    checkedPort? digits = halfWord? (Url.portValue digits) := by
  unfold checkedPort? Url.portValue
  split
  · rfl
  · exact checkedDecimal?_eq h

/-- The port of digits, as words compute it. -/
theorem portOf?_eq_checkedPort? (h : ∀ d ∈ digits, isDigit d = true) :
    Url.portOf? digits = (checkedPort? digits).map UInt16.toNat := by
  rw [Url.portOf?_eq, checkedPort?_eq h, map_toNat_halfWord?]

/-- What two numbers make as a version, however great, the second being 0 if it is missing. -/
def versionValue (major : List UInt8) (minor : Option (List UInt8)) : Nat :=
  placeValue major * 256 + minor.elim 0 placeValue

theorem number?_eq_placeValue (digits : List UInt8) :
    Protocol.number? digits = if IsNumber digits then some (placeValue digits) else none := by
  rw [← decimal_eq_placeValue]
  rfl

theorem checkedNumber?_eq (digits : List UInt8) :
    checkedNumber? digits = if IsNumber digits then halfWord? (placeValue digits) else none := by
  unfold checkedNumber?
  split
  · rename_i h
    exact checkedDecimal?_eq (List.all_eq_true.1 h.2)
  · rfl

theorem number?_minor (minor : Option (List UInt8)) :
    (minor.map Protocol.number?).getD (some 0) =
      if ∀ ds ∈ minor, IsNumber ds then some (minor.elim 0 placeValue) else none := by
  cases minor with
  | none => simp
  | some ds => simp [number?_eq_placeValue]

theorem checkedNumber?_minor (minor : Option (List UInt8)) :
    (minor.map checkedNumber?).getD (some 0) =
      if ∀ ds ∈ minor, IsNumber ds then halfWord? (minor.elim 0 placeValue) else none := by
  cases minor with
  | none => simp [halfWord?, UInt16.size]
  | some ds => simp [checkedNumber?_eq]

theorem bind_numbers {α β : Type} (x : Option α) (f : α → α → Option β) (major : List UInt8)
    (minor : Option (List UInt8)) (y : Option α) :
    ((if IsNumber major then x else none).bind fun m =>
      (if ∀ ds ∈ minor, IsNumber ds then y else none).bind (f m)) =
      if IsNumber major ∧ ∀ ds ∈ minor, IsNumber ds then x.bind fun m => y.bind (f m)
      else none := by
  by_cases hm : IsNumber major
  · by_cases hn : ∀ ds ∈ minor, IsNumber ds
    · rw [if_pos hm, if_pos hn, if_pos ⟨hm, hn⟩]
    · have hnot : ¬ (IsNumber major ∧ ∀ ds ∈ minor, IsNumber ds) := fun h => hn h.2
      rw [if_neg hn, if_neg hnot]
      exact Option.bind_fun_none _
  · have hnot : ¬ (IsNumber major ∧ ∀ ds ∈ minor, IsNumber ds) := fun h => hm h.1
    rw [if_neg hm, if_neg hnot, Option.bind_none]

theorem version?_eq (major : List UInt8) (minor : Option (List UInt8)) :
    Protocol.version? major minor =
      if IsNumber major ∧ ∀ ds ∈ minor, IsNumber ds then
        if versionValue major minor ≤ 65535 then some (versionValue major minor) else none
      else none := by
  unfold Protocol.version?
  rw [number?_eq_placeValue, number?_minor]
  exact bind_numbers _ _ _ _ _

theorem eq_versionValue {major : List UInt8} {minor : Option (List UInt8)} {version : Nat}
    (h : Protocol.version? major minor = some version) :
    version = versionValue major minor ∧ version ≤ 65535 := by
  rw [version?_eq] at h
  split_ifs at h with hnumbers hle
  obtain rfl := Option.some.inj h
  exact ⟨rfl, hle⟩

theorem checkedVersion?_eq (major : List UInt8) (minor : Option (List UInt8)) :
    checkedVersion? major minor =
      if IsNumber major ∧ ∀ ds ∈ minor, IsNumber ds then halfWord? (versionValue major minor)
      else none := by
  -- Each product and each sum on the way is no greater than the version, so it fits if that does.
  have hmajor : placeValue major ≤ versionValue major minor := by
    unfold versionValue
    omega
  have hminor : minor.elim 0 placeValue ≤ versionValue major minor := by
    unfold versionValue
    omega
  unfold checkedVersion?
  rw [checkedNumber?_eq, checkedNumber?_minor]
  refine (bind_numbers _ _ _ _ _).trans ?_
  congr 1
  apply halfWord?_bind hmajor
  intro m hm
  apply halfWord?_bind hminor
  intro n hn
  have hproduct : m.toNat * UInt16.toNat 0x100 ≤ versionValue major minor := by
    rw [hm]
    exact Nat.le_add_right _ _
  apply halfWord?_bind hproduct
  intro product hproduct
  unfold checkedAdd? versionValue
  rw [hproduct, hm, hn]
  rfl

/-- The version of two numbers, as words compute it. -/
theorem version?_eq_checkedVersion? (major : List UInt8) (minor : Option (List UInt8)) :
    Protocol.version? major minor = (checkedVersion? major minor).map UInt16.toNat := by
  rw [version?_eq, checkedVersion?_eq]
  split
  · exact (map_toNat_halfWord? _).symm
  · rfl

end Checked

section Saturating

/-- The number as a word of 32 bits, or else the greatest of these. -/
def saturate (n : Nat) : UInt32 := .ofNat (min n (UInt32.size - 1))

def saturatingAdd (a b : UInt32) : UInt32 := saturate (a.toNat + b.toNat)

def saturatingMul (a b : UInt32) : UInt32 := saturate (a.toNat * b.toNat)

def saturatingStep (n : UInt32) (b : UInt8) : UInt32 :=
  saturatingAdd (saturatingMul n 10) (b - 0x30).toUInt32

/-- What digits add, each at a tenth of the scale of the one before it. -/
def addScaled (n scale : UInt32) : List UInt8 → UInt32
  | [] => n
  | b :: bs => addScaled (saturatingAdd n ((b - 0x30).toUInt32 * scale)) (scale / 10) bs

def saturatingMillis (whole fraction : List UInt8) : UInt32 :=
  addScaled (saturatingMul (whole.foldl saturatingStep 0) 1000) 100 (fraction.take 3)

/-- The weight of digits before and after a point, which has to fit into 16 bits first. -/
def saturatingWeight? (whole fraction : List UInt8) : Option Weight := do
  let millis ← halfWord? (saturatingMillis whole fraction).toNat
  Weight.ofMillis? millis.toNat

theorem toNat_saturate (n : Nat) : (saturate n).toNat = min n (UInt32.size - 1) :=
  UInt32.toNat_ofNat_of_lt (by unfold UInt32.size; omega)

theorem saturatingAdd_saturate (n : Nat) (w : UInt32) :
    saturatingAdd (saturate n) w = saturate (n + w.toNat) := by
  unfold saturatingAdd
  apply UInt32.toNat.inj
  rw [toNat_saturate, toNat_saturate, toNat_saturate]
  omega

theorem saturatingMul_saturate (n : Nat) {w : UInt32} (hw : 0 < w.toNat) :
    saturatingMul (saturate n) w = saturate (n * w.toNat) := by
  unfold saturatingMul
  apply UInt32.toNat.inj
  rw [toNat_saturate, toNat_saturate, toNat_saturate]
  by_cases hn : n ≤ UInt32.size - 1
  · rw [Nat.min_eq_left hn]
  · -- Both products are past the greatest word.
    have hleft : (UInt32.size - 1) * 1 ≤ (UInt32.size - 1) * w.toNat := Nat.mul_le_mul_left _ hw
    have hright : n * 1 ≤ n * w.toNat := Nat.mul_le_mul_left _ hw
    rw [Nat.min_eq_right (by omega : UInt32.size - 1 ≤ n)]
    omega

theorem saturatingStep_saturate (n : Nat) (h : isDigit b = true) :
    saturatingStep (saturate n) b = saturate (n * 10 + digitValue b) := by
  unfold saturatingStep
  rw [saturatingMul_saturate n (by decide), saturatingAdd_saturate, UInt8.toNat_toUInt32,
    toNat_sub_zero h]
  rfl

theorem foldl_saturatingStep (n : Nat) (h : ∀ d ∈ digits, isDigit d = true) :
    digits.foldl saturatingStep (saturate n) = saturate (decimalFrom n digits) := by
  induction digits generalizing n with
  | nil => rfl
  | cons b bs ih =>
    rw [List.forall_mem_cons] at h
    rw [List.foldl_cons, saturatingStep_saturate n h.1, ih _ h.2, decimalFrom_cons]

theorem addScaled_saturate (n : Nat) {scale : UInt32} (hscale : scale.toNat ≤ 100)
    (h : isDigit b = true) :
    addScaled (saturate n) scale (b :: digits) =
      addScaled (saturate (n + digitValue b * scale.toNat)) (scale / 10) digits := by
  have hvalue := digitValue_le h
  have hproduct : digitValue b * scale.toNat ≤ 9 * 100 := Nat.mul_le_mul hvalue hscale
  rw [addScaled, saturatingAdd_saturate, UInt32.toNat_mul, UInt8.toNat_toUInt32, toNat_sub_zero h,
    Nat.mod_eq_of_lt (by omega)]

def padded (k : Nat) (digits : List UInt8) : List UInt8 := (digits.take k).rightpad k 0x30

theorem padded_nil (k : Nat) : padded k [] = List.replicate k 0x30 := by
  simp [padded, List.rightpad]

theorem padded_succ (k : Nat) (b : UInt8) (digits : List UInt8) :
    padded (k + 1) (b :: digits) = b :: padded k digits := by
  simp [padded, List.rightpad]

theorem length_padded (k : Nat) (digits : List UInt8) : (padded k digits).length = k := by
  simp [padded]

theorem addScaled_take {scale : UInt32} (hk : k ≤ 3) (hscale : scale.toNat = 10 ^ k / 10) (n : Nat)
    (h : ∀ d ∈ digits, isDigit d = true) :
    addScaled (saturate n) scale (digits.take k) = saturate (n + placeValue (padded k digits)) := by
  -- No sum is taken past the greatest word that is not past it on the whole.
  induction digits generalizing k scale n with
  | nil => rw [List.take_nil, padded_nil, placeValue_replicate_zero, Nat.add_zero, addScaled]
  | cons b bs ih =>
    cases k with
    | zero => rfl
    | succ k =>
      rw [List.forall_mem_cons] at h
      have hpow : 10 ^ k ≤ 10 ^ 2 := Nat.pow_le_pow_right (by omega) (by omega)
      have hnow : scale.toNat = 10 ^ k := by
        rw [hscale, pow_succ, Nat.mul_div_cancel _ (by omega)]
      have hnext : (scale / 10).toNat = 10 ^ k / 10 := by
        rw [UInt32.toNat_div, hnow]
        rfl
      rw [List.take_succ_cons, addScaled_saturate n (by omega) h.1, ih (by omega) hnext _ h.2,
        padded_succ, placeValue_cons, length_padded, hnow, Nat.add_assoc]

theorem thousandths_eq_placeValue (digits : List UInt8) :
    Weight.thousandths digits = placeValue (padded 3 digits) := by
  have hnil : placeValue [] = 0 := rfl
  match digits with
  | [] => rfl
  | [a] => simp [Weight.thousandths, padded, placeValue_cons, digitValue, hnil]
  | [a, b] => simp [Weight.thousandths, padded, placeValue_cons, digitValue, hnil]
  | a :: b :: c :: _ => simp [Weight.thousandths, padded, placeValue_cons, digitValue, hnil]

theorem saturatingMillis_eq {whole fraction : List UInt8} (hwhole : ∀ d ∈ whole, isDigit d = true)
    (hfraction : ∀ d ∈ fraction, isDigit d = true) :
    saturatingMillis whole fraction =
      saturate (placeValue whole * 1000 + placeValue (padded 3 fraction)) := by
  have hzero : (0 : UInt32) = saturate 0 := rfl
  unfold saturatingMillis
  rw [hzero, foldl_saturatingStep 0 hwhole, saturatingMul_saturate _ (by decide),
    addScaled_take (by omega) (by rfl) _ hfraction, decimalFrom_eq, zero_mul, zero_add]
  rfl

/-- Weights are at most 1, and only numbers that are far greater are ever taken for others. -/
theorem ofMillis?_eq_saturatingWeight? {whole fraction : List UInt8}
    (hwhole : ∀ d ∈ whole, isDigit d = true) (hfraction : ∀ d ∈ fraction, isDigit d = true) :
    Weight.ofMillis? (decimal whole * 1000 + Weight.thousandths fraction) =
      saturatingWeight? whole fraction := by
  unfold saturatingWeight?
  rw [saturatingMillis_eq hwhole hfraction, decimal_eq_placeValue, thousandths_eq_placeValue,
    toNat_saturate]
  generalize placeValue whole * 1000 + placeValue (padded 3 fraction) = n
  by_cases hn : n < UInt16.size
  · have hmin : min n (UInt32.size - 1) = n := by
      unfold UInt16.size at hn
      unfold UInt32.size
      omega
    obtain ⟨w, hw, hnat⟩ := halfWord?_of_lt hn
    rw [hmin, hw, Option.bind_eq_bind, Option.bind_some, hnat]
  · have hsize : UInt16.size ≤ min n (UInt32.size - 1) := by
      unfold UInt16.size at hn ⊢
      unfold UInt32.size
      omega
    have hmax : ¬ n ≤ 1000 := by
      unfold UInt16.size at hn
      omega
    rw [halfWord?_of_le hsize, Weight.ofMillis?, dif_neg hmax]
    rfl

end Saturating

end Recognition.Http

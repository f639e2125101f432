import Recognition.Http.Reader

namespace Recognition.Http

structure Weight where
  millis : Nat
  millis_le : millis ≤ 1000
deriving DecidableEq, Repr

namespace Weight

def zero : Weight := ⟨0, by decide⟩

def one : Weight := ⟨1000, by decide⟩

instance : Inhabited Weight := ⟨one⟩

def ofMillis? (millis : Nat) : Option Weight :=
  if h : millis ≤ 1000 then some ⟨millis, h⟩ else none

def toFloat32 (w : Weight) : Float32 := Float32.ofNat w.millis / 1000

/-- Three digits without zeros at the end. -/
def decimals (millis : Nat) : List Char :=
  let digit n := Char.ofNat ('0'.toNat + n % 10)
  ([digit (millis / 100), digit (millis / 10), digit millis].reverse.dropWhile (· = '0')).reverse

/-- As few digits as will do, without a point if it is whole. -/
def text (w : Weight) : List Char :=
  let whole := Char.ofNat ('0'.toNat + w.millis / 1000)
  match decimals (w.millis % 1000) with
  | [] => [whole]
  | ds => whole :: '.' :: ds

/-- What digits after the point stand for, in thousandths. -/
def thousandths (digits : List UInt8) : Nat :=
  (List.zipWith (fun (b : UInt8) unit => (b.toNat - 0x30) * unit) digits [100, 10, 1]).foldr
    (· + ·) 0

/-- The digits after a point, and the window after them. Nothing is taken without a point. -/
def readFraction (w : Window) : List UInt8 × Window :=
  match w.eat? Byte.dot with
  | none => ([], w)
  | some v => (v.rest.takeWhile isDigit, v.skip isDigit)

theorem readFraction_le (w : Window) : (readFraction w).2 ≤ w := by
  rw [readFraction]
  split
  · exact Window.le_refl w
  · exact Window.le_trans (Window.skip_le _ _) (Window.le_of_lt (Window.eat?_lt ‹_›))

theorem readFraction_lt {w : Window} (h : (readFraction w).1 ≠ []) : (readFraction w).2 < w := by
  rw [readFraction] at h ⊢
  split
  · simp_all
  · exact Window.lt_of_le_of_lt (Window.skip_le _ _) (Window.eat?_lt ‹_›)

end Weight

/-- Digits, a point and digits. Either digits may be missing, but not both. -/
def weight : Reader Weight where
  read w :=
    let whole := w.rest.takeWhile isDigit
    let fraction := Weight.readFraction (w.skip isDigit)
    if whole = [] ∧ fraction.1 = [] then none
    else
      (Weight.ofMillis? (decimal whole * 1000 + Weight.thousandths fraction.1)).map fun weight =>
        (weight, fraction.2)
  lt {w _ _} h := by
    simp only at h
    split at h
    · simp at h
    · rename_i hne
      obtain ⟨_, _, h⟩ := Option.map_eq_some_iff.1 h
      obtain ⟨_, rfl⟩ := Prod.mk.inj h
      by_cases hw : w.rest.takeWhile isDigit = []
      · exact Window.lt_of_lt_of_le (Weight.readFraction_lt fun hf => hne ⟨hw, hf⟩)
          (Window.skip_le _ _)
      · refine Window.lt_of_le_of_lt (Weight.readFraction_le _) ⟨w.count isDigit, ?_, ?_, rfl⟩
        · exact List.length_pos_iff.2 hw
        · exact Window.count_le _ w

end Recognition.Http

namespace Recognition.Sgml

/-- A delimiter, or a pair that opens and closes. -/
inductive Delimiter where
  | quot | apos | amp | ltGt | bsol | dollar | percnt | commat | num
  | lparRpar | lcubRcub | lsqbRsqb
deriving DecidableEq, Repr

def Delimiter.ofChar? : Char → Option Delimiter
  | '"' => some .quot
  | '\'' => some .apos
  | '&' => some .amp
  | '<' | '>' => some .ltGt
  | '\\' => some .bsol
  | '$' => some .dollar
  | '%' => some .percnt
  | '@' => some .commat
  | '#' => some .num
  | '(' | ')' => some .lparRpar
  | '\x7b' | '\x7d' => some .lcubRcub
  | '[' | ']' => some .lsqbRsqb
  | _ => none

structure EscapeSet where
  delimiters : List Delimiter
  /-- Every ASCII character that has a name counts, delimiter or not. -/
  full : Bool
deriving Repr

namespace EscapeSet

def none : EscapeSet := ⟨[], false⟩

def of (delimiters : List Delimiter) : EscapeSet := ⟨delimiters, false⟩

def quotApos : EscapeSet := of [.quot, .apos]

def markup : EscapeSet := of [.amp, .ltGt]

def attributeValue : EscapeSet := of [.amp, .quot, .apos]

def cString : EscapeSet := of [.amp, .bsol, .quot, .apos]

def text : EscapeSet := of [.amp, .ltGt, .quot]

def all : EscapeSet := ⟨[], true⟩

def union (s t : EscapeSet) : EscapeSet := ⟨s.delimiters ++ t.delimiters, s.full || t.full⟩

def contains (s t : EscapeSet) : Bool :=
  t.delimiters.all (· ∈ s.delimiters) && (!t.full || s.full)

def covers (s : EscapeSet) (c : Char) : Bool :=
  match Delimiter.ofChar? c with
  | some d => d ∈ s.delimiters
  | _ => false

theorem covers_of_contains {s t : EscapeSet} (h : s.contains t = true) {c : Char}
    (hc : t.covers c = true) : s.covers c = true := by
  simp only [contains, Bool.and_eq_true, List.all_eq_true, decide_eq_true_eq] at h
  simp only [covers] at hc ⊢
  cases hd : Delimiter.ofChar? c with
  | none => simp [hd] at hc
  | some d => simpa [hd] using h.1 d (by simpa [hd] using hc)

end EscapeSet

end Recognition.Sgml

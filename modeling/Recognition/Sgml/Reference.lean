import Recognition.Sgml.Entity
import Recognition.Utf8

namespace Recognition.Sgml

/-- A character at which a reference is given up. -/
def endsReference (c : Char) : Bool :=
  c = '\x00' || c = '&' || c = ' ' || c = '\t' || c = '\n' || c = '\x0c' || c = '\r'

/-- The body of a reference, of which the `&` is read, and the text after its `;`. -/
def body? : List Char → Option (List Char × List Char)
  | [] => none
  | c :: cs =>
    if c = ';' then some ([], cs)
    else if endsReference c then none
    else (body? cs).map fun r => (c :: r.1, r.2)

def digit? (radix : Nat) (c : Char) : Option Nat :=
  let n := c.toNat
  let value :=
    if '0'.toNat ≤ n ∧ n ≤ '9'.toNat then n - '0'.toNat
    else if 'a'.toNat ≤ n ∧ n ≤ 'f'.toNat then n - 'a'.toNat + 10
    else if 'A'.toNat ≤ n ∧ n ≤ 'F'.toNat then n - 'A'.toNat + 10
    else radix
  if value < radix then some value else none

def numberFrom? (radix : Nat) (n : Nat) : List Char → Option Nat
  | [] => some n
  | c :: cs => (digit? radix c).bind fun d => numberFrom? radix (n * radix + d) cs

def number? (radix : Nat) (digits : List Char) : Option Nat :=
  if digits.isEmpty then none else numberFrom? radix 0 digits

/-- The scalar with this number. NUL has no reference. -/
def scalar? (n : Nat) : Option Char :=
  if n.isValidChar ∧ n ≠ 0 then some (Char.ofNat n) else none

def numbered? : List Char → Option Char
  | 'x' :: hex | 'X' :: hex => (number? 16 hex).bind scalar?
  | decimal => (number? 10 decimal).bind scalar?

def meaning? : List Char → Option (List Char)
  | '#' :: number => (numbered? number).map ([·])
  | name => scalarsOf? name

/-- The reference whose `&` is read, as one glyph, and the text after it. -/
def reference? (cs : List Char) : Option (Glyph × List Char) := do
  let (body, rest) ← body? cs
  let scalars ← meaning? body
  let g ← Glyph.ofScalars? scalars (Utf8.size body + 2)
  return (g, rest)

theorem scalar?_eq_some_iff {n : Nat} {c : Char} :
    scalar? n = some c ↔ c ≠ '\x00' ∧ c.toNat = n := by
  constructor
  · intro h
    rw [scalar?] at h
    split at h
    · rename_i hn
      obtain rfl := Option.some.inj h
      have htoNat : (Char.ofNat n).toNat = n := by
        rw [Char.ofNat, dif_pos hn.1]
        rfl
      refine ⟨?_, htoNat⟩
      intro hnul
      rw [hnul] at htoNat
      exact hn.2 htoNat.symm
    · cases h
  · rintro ⟨hne, rfl⟩
    have hpos : c.toNat ≠ 0 := by
      intro hzero
      exact hne (Char.toNat_inj.1 hzero)
    rw [scalar?, if_pos ⟨c.valid, hpos⟩, Char.ofNat_toNat]

theorem body?_eq_some {cs body rest : List Char} (h : body? cs = some (body, rest)) :
    cs = body ++ ';' :: rest ∧ ';' ∉ body ∧ ∀ c ∈ body, endsReference c = false := by
  induction cs generalizing body with
  | nil => simp [body?] at h
  | cons c cs ih =>
    rw [body?] at h
    split at h
    · rename_i hc
      obtain ⟨rfl, rfl⟩ := Prod.mk.inj (Option.some.inj h)
      simp [hc]
    · split at h
      · simp at h
      · obtain ⟨⟨b, r⟩, hb, hr⟩ := Option.map_eq_some_iff.1 h
        obtain ⟨rfl, rfl⟩ := Prod.mk.inj hr
        obtain ⟨rfl, hsemi, hends⟩ := ih hb
        refine ⟨by simp, ?_, ?_⟩
        · rw [List.mem_cons, not_or]
          exact ⟨Ne.symm ‹_›, hsemi⟩
        · intro x hx
          rcases List.mem_cons.1 hx with rfl | hx
          · simpa using ‹¬ endsReference _ = true›
          · exact hends x hx

theorem body?_append {body rest : List Char} (hsemi : ';' ∉ body)
    (hends : ∀ c ∈ body, endsReference c = false) :
    body? (body ++ ';' :: rest) = some (body, rest) := by
  induction body with
  | nil => simp [body?]
  | cons c body ih =>
    rw [List.mem_cons, not_or] at hsemi
    rw [List.cons_append, body?, if_neg (Ne.symm hsemi.1), hends c List.mem_cons_self,
      if_neg (by simp), ih hsemi.2 fun x hx => hends x (List.mem_cons_of_mem _ hx)]
    rfl

theorem reference?_eq_some {cs rest : List Char} {g : Glyph} (h : reference? cs = some (g, rest)) :
    ∃ body, cs = body ++ ';' :: rest ∧ g.width = Utf8.size body + 2 := by
  simp only [reference?, Option.bind_eq_bind, Option.bind_eq_some_iff, Option.pure_def] at h
  obtain ⟨⟨body, r⟩, hb, s, _, g', hg, hr⟩ := h
  obtain ⟨rfl, rfl⟩ := Prod.mk.inj (Option.some.inj hr)
  exact ⟨body, (body?_eq_some hb).1, (Glyph.ofScalars?_eq_some_iff.1 hg).2⟩

theorem length_rest_lt {cs rest : List Char} {g : Glyph} (h : reference? cs = some (g, rest)) :
    rest.length < cs.length := by
  obtain ⟨body, rfl, _⟩ := reference?_eq_some h
  simp only [List.length_append, List.length_cons]
  omega

end Recognition.Sgml

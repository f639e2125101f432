import Recognition.Glyph

namespace Recognition.Utf8

def size : List Char → Nat
  | [] => 0
  | c :: cs => c.utf8Size + size cs

def bytes (text : List Char) : List UInt8 := text.flatMap String.utf8EncodeChar

def byte? : List Char → Nat → Option UInt8
  | [], _ => none
  | c :: cs, n =>
    if n < c.utf8Size then (String.utf8EncodeChar c)[n]? else byte? cs (n - c.utf8Size)

inductive Place where
  /-- Between two scalars, `rest` being what follows. -/
  | boundary (rest : List Char)
  | inside
  | beyond
deriving DecidableEq, Repr

def locate : List Char → Nat → Place
  | cs, 0 => .boundary cs
  | [], _ + 1 => .beyond
  | c :: cs, n + 1 => if n + 1 < c.utf8Size then .inside else locate cs (n + 1 - c.utf8Size)

def before : List Char → Nat → List Char
  | [], _ => []
  | c :: cs, n => if n < c.utf8Size then [] else c :: before cs (n - c.utf8Size)

/-- The glyph at `pos` before `e`. A scalar entered midway or cut by `e` reads as a replacement. -/
def glyph? (text : List Char) (pos e : Nat) : Option Glyph :=
  if pos < e then
    match locate text pos with
    | .boundary [] | .beyond => none
    | .inside => some .replacement
    | .boundary (c :: _) =>
      if c = '\x00' then none
      else if pos + c.utf8Size ≤ e then some ⟨c, none, c.utf8Size⟩
      else some .replacement
  else none

@[simp] theorem size_nil : size [] = 0 := rfl

@[simp] theorem size_cons (c : Char) (cs : List Char) :
    size (c :: cs) = c.utf8Size + size cs := rfl

@[simp] theorem size_append (a b : List Char) : size (a ++ b) = size a + size b := by
  induction a with
  | nil => simp
  | cons c cs ih => simp [ih, Nat.add_assoc]

@[simp] theorem length_bytes (text : List Char) : (bytes text).length = size text := by
  induction text with
  | nil => rfl
  | cons c cs ih =>
    rw [bytes] at ih ⊢
    simp [ih]

theorem byte?_eq_getElem? (text : List Char) (n : Nat) : byte? text n = (bytes text)[n]? := by
  induction text generalizing n with
  | nil => rfl
  | cons c cs ih =>
    have hcons : bytes (c :: cs) = String.utf8EncodeChar c ++ bytes cs := rfl
    rw [byte?, ih, hcons, List.getElem?_append]
    simp

theorem locate_size_append (a b : List Char) : locate (a ++ b) (size a) = .boundary b := by
  induction a with
  | nil => cases b <;> rfl
  | cons c cs ih =>
    have hpos := c.utf8Size_pos
    obtain ⟨n, hn⟩ : ∃ n, size (c :: cs) = n + 1 := ⟨size (c :: cs) - 1, by simp; omega⟩
    have hle : ¬ n + 1 < c.utf8Size := by rw [← hn]; simp
    rw [hn, List.cons_append, locate, if_neg hle, ← hn, size_cons, Nat.add_sub_cancel_left]
    exact ih

theorem locate_eq_boundary_iff {text rest : List Char} {n : Nat} :
    locate text n = .boundary rest ↔ ∃ as, text = as ++ rest ∧ size as = n := by
  constructor
  · intro h
    fun_induction locate text n with
    | case1 cs =>
      obtain rfl := Place.boundary.inj h
      exact ⟨[], rfl, rfl⟩
    | case2 n => cases h
    | case3 c cs n hlt => cases h
    | case4 c cs n hge ih =>
      obtain ⟨as, rfl, hsize⟩ := ih h
      refine ⟨c :: as, rfl, ?_⟩
      rw [size_cons]
      omega
  · rintro ⟨as, rfl, rfl⟩
    exact locate_size_append as rest

theorem before_zero (cs : List Char) : before cs 0 = [] := by
  cases cs with
  | nil => rfl
  | cons c cs => exact if_pos c.utf8Size_pos

theorem before_append_add (as bs : List Char) (n : Nat) :
    before (as ++ bs) (size as + n) = as ++ before bs n := by
  induction as with
  | nil => simp
  | cons c cs ih =>
    rw [List.cons_append, before, size_cons, if_neg (by omega), Nat.add_assoc,
      Nat.add_sub_cancel_left, ih, List.cons_append]

theorem before_append (as bs : List Char) : before (as ++ bs) (size as) = as := by
  simpa [before_zero] using before_append_add as bs 0

theorem exists_before_append (cs : List Char) (n : Nat) : ∃ rest, cs = before cs n ++ rest := by
  fun_induction before cs n with
  | case1 => exact ⟨[], rfl⟩
  | case2 c cs n h => exact ⟨c :: cs, rfl⟩
  | case3 c cs n h ih =>
    obtain ⟨rest, hrest⟩ := ih
    exact ⟨rest, congrArg (c :: ·) hrest⟩

theorem glyph?_bounds {text : List Char} {pos e : Nat} {g : Glyph}
    (h : glyph? text pos e = some g) : 0 < g.width ∧ pos + g.width ≤ e := by
  rw [glyph?] at h
  split at h
  · split at h
    · simp at h
    · simp at h
    · obtain rfl := Option.some.inj h
      simp only [Glyph.replacement]
      omega
    · rename_i c cs _
      split at h
      · simp at h
      · split at h
        · obtain rfl := Option.some.inj h
          exact ⟨c.utf8Size_pos, by assumption⟩
        · obtain rfl := Option.some.inj h
          simp only [Glyph.replacement]
          omega
  · simp at h

end Recognition.Utf8

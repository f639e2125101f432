import Recognition.Proofs.Encoding.Units
import Recognition.Proofs.Mirror.Source
import Recognition.Proofs.Sgml.Decoding

namespace Recognition

namespace Utf8

theorem locate_cons {c : Char} {p : Nat} (h : c.utf8Size ≤ p) (cs : List Char) :
    locate (c :: cs) p = locate cs (p - c.utf8Size) := by
  obtain ⟨n, rfl⟩ : ∃ n, p = n + 1 := ⟨p - 1, by have := c.utf8Size_pos; omega⟩
  rw [locate, if_neg (by omega)]

theorem inside_or_exists {text : List Char} {p : Nat} (h : p < size text) :
    (∀ rest, locate (text ++ rest) p = .inside) ∨
      ∃ as c cs, text = as ++ c :: cs ∧ size as = p := by
  induction text generalizing p with
  | nil => simp at h
  | cons c text ih =>
    rcases Nat.lt_or_ge p c.utf8Size with hlt | hge
    · cases p with
      | zero => exact .inr ⟨[], c, text, rfl, rfl⟩
      | succ n =>
        left
        intro rest
        rw [List.cons_append, locate, if_pos hlt]
    · rw [size_cons] at h
      rcases ih (p := p - c.utf8Size) (by omega) with hin | ⟨as, d, cs, rfl, hsize⟩
      · left
        intro rest
        rw [List.cons_append, locate_cons hge]
        exact hin rest
      · refine .inr ⟨c :: as, d, cs, rfl, ?_⟩
        rw [size_cons]
        omega

theorem bytes_append (as bs : List Char) : bytes (as ++ bs) = bytes as ++ bytes bs :=
  List.flatMap_append

theorem byte?_append {as : List Char} {p : Nat} (h : p < size as) (bs : List Char) :
    byte? (as ++ bs) p = byte? as p := by
  rw [byte?_eq_getElem?, byte?_eq_getElem?, bytes_append, List.getElem?_append_left]
  rwa [length_bytes]

theorem byte?_append_right (as bs : List Char) (n : Nat) :
    byte? (as ++ bs) (size as + n) = byte? bs n := by
  rw [byte?_eq_getElem?, byte?_eq_getElem?, bytes_append, ← length_bytes,
    List.getElem?_append_right (Nat.le_add_right _ _), Nat.add_sub_cancel_left]

theorem lt_size_of_byte? {text : List Char} {n u : Nat}
    (h : (byte? text n).map UInt8.toNat = some u) : n < size text := by
  obtain ⟨b, hb, _⟩ := Option.map_eq_some_iff.1 h
  rw [byte?_eq_getElem?] at hb
  rw [← length_bytes]
  exact (List.getElem?_eq_some_iff.1 hb).1

/-- A byte of ASCII is of no character but its own. -/
theorem toNat_of_mem {c : Char} {b : UInt8} (h : b ∈ String.utf8EncodeChar c)
    (hb : b.toNat < 0x80) : c.toNat = b.toNat := by
  have hunit : b.toNat ∈ Encoding.utf8.units c := List.mem_map_of_mem h
  have hholds : Encoding.utf8.Holds c := trivial
  rcases Encoding.eq_or_le_of_mem_units hholds hunit with heq | ⟨hhigh, _⟩
  · exact heq.symm
  · omega

theorem exists_of_byte? {text : List Char} {n : Nat} {b : UInt8} (h : byte? text n = some b)
    (hb : b.toNat < 0x80) :
    ∃ as c bs, text = as ++ c :: bs ∧ c.toNat = b.toNat ∧ size as = n := by
  induction text generalizing n with
  | nil => simp [byte?] at h
  | cons c text ih =>
    rw [byte?] at h
    split at h
    · have hc := toNat_of_mem (List.mem_of_getElem? h) hb
      have hval : c.val ≤ 127 := by
        have hval' : c.val.toNat ≤ 127 := by
          change c.toNat ≤ 127
          omega
        exact UInt32.le_iff_toNat_le.2 hval'
      have hsize : c.utf8Size = 1 := Char.utf8Size_eq_one_iff.2 hval
      exact ⟨[], c, text, rfl, hc, by rw [size_nil]; omega⟩
    · obtain ⟨as, d, bs, rfl, hd, hsize⟩ := ih h
      refine ⟨c :: as, d, bs, rfl, hd, ?_⟩
      rw [size_cons]
      omega

theorem byte?_eq_some_iff {c : Char} (hc : c.toNat < 0x80) {text : List Char} {n : Nat} :
    byte? text n = some c.toNat.toUInt8 ↔ ∃ as bs, text = as ++ c :: bs ∧ size as = n := by
  have hbyte : c.toNat.toUInt8.toNat = c.toNat := Nat.mod_eq_of_lt (by omega)
  constructor
  · intro h
    obtain ⟨as, d, bs, rfl, hd, hsize⟩ := exists_of_byte? h (by omega)
    obtain rfl : d = c := Char.toNat_inj.1 (hd.trans hbyte)
    exact ⟨as, bs, rfl, hsize⟩
  · rintro ⟨as, bs, rfl, rfl⟩
    have hfirst : byte? (c :: bs) 0 = (String.utf8EncodeChar c)[0]? := if_pos c.utf8Size_pos
    have hle : c.val.toNat ≤ 0x7F := Nat.le_of_lt_succ hc
    have hread := byte?_append_right as (c :: bs) 0
    rw [hfirst, String.utf8EncodeChar, if_pos hle] at hread
    exact hread

theorem exists_of_byte?_eq_zero {text : List Char} {n : Nat} (h : byte? text n = some 0) :
    ∃ as bs, text = as ++ '\x00' :: bs ∧ size as = n :=
  (byte?_eq_some_iff (by decide)).1 h

theorem glyph?_append_left (as bs : List Char) (p : Nat) :
    glyph? (as ++ bs) p (size as) = glyph? as p (size as) := by
  by_cases hp : p < size as
  · have hlocate := inside_or_exists hp
    rcases hlocate with hin | ⟨a, c, cs, rfl, rfl⟩
    · have halone := hin []
      rw [List.append_nil] at halone
      simp only [glyph?, hin, halone]
    · rw [List.append_assoc]
      simp only [glyph?, locate_size_append, List.cons_append]
  · simp only [glyph?, if_neg hp]

theorem glyph?_before_nul {as bs : List Char} {p e : Nat} (hp : p ≤ size as) (he : size as < e) :
    glyph? (as ++ '\x00' :: bs) p (size as) = glyph? (as ++ '\x00' :: bs) p e := by
  rcases Nat.lt_or_eq_of_le hp with hlt | rfl
  · have hlt' : p < e := Nat.lt_trans hlt he
    rcases inside_or_exists hlt with hin | ⟨a, c, cs, rfl, rfl⟩
    · simp only [glyph?, hin, if_pos hlt, if_pos hlt']
    · -- The NUL is no nearer than the end of the character that is read.
      have hc : size a + c.utf8Size ≤ size (a ++ c :: cs) := by
        rw [size_append, size_cons]
        omega
      have hc' : size a + c.utf8Size ≤ e := by omega
      rw [List.append_assoc] at *
      simp only [glyph?, locate_size_append, List.cons_append, if_pos hlt, if_pos hlt', if_pos hc,
        if_pos hc']
  · simp only [glyph?, locate_size_append, Nat.lt_irrefl, if_true, ite_self]

end Utf8

namespace Utf16

theorem glyph?_take (units : List UInt16) (p e : Nat) :
    glyph? (units.take e) p e = glyph? units p e := by
  by_cases hp : p < e
  · have hget : (units.take e)[p]? = units[p]? := List.getElem?_take_of_lt hp
    by_cases hnext : p + 1 < e
    · have hget' : (units.take e)[p + 1]? = units[p + 1]? := List.getElem?_take_of_lt hnext
      simp only [glyph?, if_pos hp, if_pos hnext, hget, hget']
    · simp only [glyph?, if_pos hp, if_neg hnext, hget]
  · simp only [glyph?, if_neg hp]

theorem glyph?_before_nul {units : List UInt16} {p n e : Nat} (hn : units[n]? = some 0)
    (hp : p ≤ n) (he : n < e) : glyph? units p n = glyph? units p e := by
  have hpe : p < e := Nat.lt_of_le_of_lt hp he
  rcases Nat.lt_or_eq_of_le hp with hlt | rfl
  · by_cases hnext : p + 1 < n
    · have hnext' : p + 1 < e := by omega
      simp only [glyph?, if_pos hlt, if_pos hpe, if_pos hnext, if_pos hnext']
    · obtain rfl : p + 1 = n := by omega
      -- A NUL is no second half of a pair.
      have hlow : isLowSurrogate 0 = false := by decide
      simp [glyph?, hpe, he, hn, hlow]
  · simp [glyph?, hpe, hn]

end Utf16

namespace Sgml

theorem width_le_of_nul {keep : EscapeSet} {cs bs rest : List Char} {g : Glyph}
    (h : unkept? keep (cs ++ '\x00' :: bs) = some (g, rest)) : g.width ≤ Utf8.size cs := by
  obtain ⟨tail, hwhole, hends, hsize, _⟩ := exists_tail_of_unkept? h
  rw [← hsize]
  rcases List.append_eq_append_iff.1 hwhole with ⟨ds, htail, hnul⟩ | ⟨ds, rfl, _⟩
  · cases ds with
    | nil => simp [htail]
    | cons d ds =>
      obtain rfl := (List.cons.inj hnul).1
      have hmem : '\x00' ∈ '&' :: tail := by simp [htail]
      rcases List.mem_cons.1 hmem with heq | hmem
      · exact absurd heq (by decide)
      · exact absurd (hends _ hmem) (by decide)
  · rw [Utf8.size_append]
    exact Nat.le_add_right _ _

end Sgml

namespace Source

theorem reference?_eq_none {text : List Char} {p e : Nat} (h : e ≤ p) :
    reference? text p e = none := by
  cases hg : reference? text p e with
  | none => rfl
  | some g =>
    have := reference?_bounds hg
    omega

open Sgml (unkept?_append reference?_eq_unkept? exists_of_unkept?_append)

theorem reference?_append_left (as bs : List Char) (p : Nat) :
    reference? (as ++ bs) p (Utf8.size as) = reference? as p (Utf8.size as) := by
  by_cases hp : p < Utf8.size as
  · rcases Utf8.inside_or_exists hp with hin | ⟨a, c, cs, rfl, rfl⟩
    · have halone := hin []
      rw [List.append_nil] at halone
      rw [reference?, reference?, hin, halone]
    · rw [List.append_assoc, reference?_eq_unkept?, reference?_eq_unkept?]
      cases halone : Sgml.unkept? .none (c :: cs) with
      | some r => rw [unkept?_append halone]; rfl
      | none =>
        cases hfront : Sgml.unkept? .none (c :: cs ++ bs) with
        | none => rfl
        | some r =>
          -- What is read only with more text ends there, and so after the bound.
          have hlong : ¬ Utf8.size a + r.1.width ≤ Utf8.size (a ++ c :: cs) := by
            intro hle
            rw [Utf8.size_append, Nat.add_le_add_iff_left] at hle
            obtain ⟨after, hafter, _⟩ := exists_of_unkept?_append hfront hle
            rw [halone] at hafter
            simp at hafter
          rw [Option.map_some, Option.filter_some, if_neg (by simpa using hlong)]
          rfl
  · have hle := Nat.le_of_not_lt hp
    rw [reference?_eq_none hle, reference?_eq_none hle]

theorem reference?_before_nul {as bs : List Char} {p e : Nat} (hp : p ≤ Utf8.size as)
    (he : Utf8.size as < e) :
    reference? (as ++ '\x00' :: bs) p (Utf8.size as) = reference? (as ++ '\x00' :: bs) p e := by
  rcases Nat.lt_or_eq_of_le hp with hlt | rfl
  · rcases Utf8.inside_or_exists hlt with hin | ⟨a, c, cs, rfl, rfl⟩
    · rw [reference?, reference?, hin]
    · rw [List.append_assoc, reference?_eq_unkept?, reference?_eq_unkept?]
      cases hfront : Sgml.unkept? .none (c :: cs ++ '\x00' :: bs) with
      | none => rfl
      | some r =>
        -- No reference runs over a NUL.
        have hle : Utf8.size a + r.1.width ≤ Utf8.size (a ++ c :: cs) := by
          rw [Utf8.size_append, Nat.add_le_add_iff_left]
          exact Sgml.width_le_of_nul hfront
        have hle' : Utf8.size a + r.1.width ≤ e := by omega
        rw [Option.map_some, Option.filter_some, Option.filter_some, if_pos (by simpa using hle),
          if_pos (by simpa using hle')]
  · have hnul : Sgml.unkept? .none ('\x00' :: bs) = none :=
      Sgml.unkept?_eq_none_of_ne (by decide) bs
    rw [reference?_eq_unkept?, reference?_eq_unkept?, hnul]
    rfl

section Cut

/-- Whether the text may be cut before unit `e`, which in UTF-8 is no place inside a character. -/
def IsCut (src : Source) (e : Nat) : Prop :=
  match src with
  | utf8 text | sgml text => ∃ as bs, text = as ++ bs ∧ Utf8.size as = e
  | _ => e ≤ src.size

/-- The first `e` units. -/
def take (src : Source) (e : Nat) : Source :=
  match src with
  | latin1 bytes => latin1 (bytes.take e)
  | utf16 units => utf16 (units.take e)
  | scalars chars => scalars (chars.take e)
  | utf8 text => utf8 (Utf8.before text e)
  | sgml text => sgml (Utf8.before text e)

variable {src : Source} {e p n : Nat}

theorem IsCut.le_size (h : src.IsCut e) : e ≤ src.size := by
  cases src with
  | latin1 bytes => exact h
  | utf16 units => exact h
  | scalars chars => exact h
  | utf8 text =>
    obtain ⟨as, bs, rfl, rfl⟩ := h
    rw [size, Utf8.size_append]
    exact Nat.le_add_right _ _
  | sgml text =>
    obtain ⟨as, bs, rfl, rfl⟩ := h
    rw [size, Utf8.size_append]
    exact Nat.le_add_right _ _

theorem size_take (h : src.IsCut e) : (src.take e).size = e := by
  cases src with
  | latin1 bytes => exact List.length_take_of_le h
  | utf16 units => exact List.length_take_of_le h
  | scalars chars => exact List.length_take_of_le h
  | utf8 text =>
    obtain ⟨as, bs, rfl, rfl⟩ := h
    rw [take, size, Utf8.before_append]
  | sgml text =>
    obtain ⟨as, bs, rfl, rfl⟩ := h
    rw [take, size, Utf8.before_append]

theorem unit?_take (h : src.IsCut e) (hp : p < e) : (src.take e).unit? p = src.unit? p := by
  cases src with
  | latin1 bytes => simp only [take, unit?, List.getElem?_take_of_lt hp]
  | utf16 units => simp only [take, unit?, List.getElem?_take_of_lt hp]
  | scalars chars => simp only [take, unit?, List.getElem?_take_of_lt hp]
  | utf8 text =>
    obtain ⟨as, bs, rfl, rfl⟩ := h
    simp only [take, unit?, Utf8.before_append, Utf8.byte?_append hp]
  | sgml text =>
    obtain ⟨as, bs, rfl, rfl⟩ := h
    simp only [take, unit?, Utf8.before_append, Utf8.byte?_append hp]

/-- No glyph before a bound tells what is after it. -/
theorem glyph?_take (h : src.IsCut e) (p : Nat) : (src.take e).glyph? p e = src.glyph? p e := by
  cases src with
  | latin1 bytes =>
    by_cases hp : p < e
    · simp only [take, glyph?, List.getElem?_take_of_lt hp]
    · simp only [take, glyph?, if_neg hp]
  | utf16 units => exact Utf16.glyph?_take units p e
  | scalars chars =>
    by_cases hp : p < e
    · simp only [take, glyph?, List.getElem?_take_of_lt hp]
    · simp only [take, glyph?, if_neg hp]
  | utf8 text =>
    obtain ⟨as, bs, rfl, rfl⟩ := h
    rw [take, Utf8.before_append]
    exact (Utf8.glyph?_append_left as bs p).symm
  | sgml text =>
    obtain ⟨as, bs, rfl, rfl⟩ := h
    rw [take, Utf8.before_append, glyph?, glyph?, reference?_append_left,
      Utf8.glyph?_append_left]

end Cut

section Nul

variable {src : Source} {e p n : Nat}

theorem eq_zero_of_toNat_eq_zero {o : Option UInt8} (h : o.map UInt8.toNat = some 0) :
    o = some 0 := by
  obtain ⟨b, rfl, hzero⟩ := Option.map_eq_some_iff.1 h
  exact congrArg some (UInt8.toNat_inj.1 hzero)

theorem lt_size_of_unit? {u : Nat} (h : src.unit? n = some u) : n < src.size := by
  cases src with
  | latin1 bytes =>
    obtain ⟨b, hb, _⟩ := Option.map_eq_some_iff.1 h
    exact (List.getElem?_eq_some_iff.1 hb).1
  | utf16 units =>
    obtain ⟨b, hb, _⟩ := Option.map_eq_some_iff.1 h
    exact (List.getElem?_eq_some_iff.1 hb).1
  | scalars chars =>
    obtain ⟨b, hb, _⟩ := Option.map_eq_some_iff.1 h
    exact (List.getElem?_eq_some_iff.1 hb).1
  | utf8 text => exact Utf8.lt_size_of_byte? h
  | sgml text => exact Utf8.lt_size_of_byte? h

/-- No glyph before a NUL tells what is after it. -/
theorem glyph?_before_nul (hn : src.unit? n = some 0) (hp : p ≤ n) (he : n < e) :
    src.glyph? p n = src.glyph? p e := by
  have hpe : p < e := Nat.lt_of_le_of_lt hp he
  cases src with
  | latin1 bytes =>
    rcases Nat.lt_or_eq_of_le hp with hlt | rfl
    · simp only [glyph?, if_pos hlt, if_pos hpe]
    · have hbyte := eq_zero_of_toNat_eq_zero hn
      simp [glyph?, hbyte, Option.filter_some]
  | utf16 units =>
    obtain ⟨u, hu, hzero⟩ := Option.map_eq_some_iff.1 hn
    obtain rfl : u = 0 := UInt16.toNat_inj.1 hzero
    exact Utf16.glyph?_before_nul hu hp he
  | scalars chars =>
    rcases Nat.lt_or_eq_of_le hp with hlt | rfl
    · simp only [glyph?, if_pos hlt, if_pos hpe]
    · obtain ⟨c, hc, hzero⟩ := Option.map_eq_some_iff.1 hn
      obtain rfl : c = '\x00' := Char.toNat_inj.1 hzero
      simp [glyph?, hc, Option.filter_some]
  | utf8 text =>
    obtain ⟨as, bs, rfl, rfl⟩ := Utf8.exists_of_byte?_eq_zero (eq_zero_of_toNat_eq_zero hn)
    exact Utf8.glyph?_before_nul hp he
  | sgml text =>
    obtain ⟨as, bs, rfl, rfl⟩ := Utf8.exists_of_byte?_eq_zero (eq_zero_of_toNat_eq_zero hn)
    rw [glyph?, glyph?, reference?_before_nul hp he, Utf8.glyph?_before_nul hp he]

theorem isCut_of_nul (hn : src.unit? n = some 0) : src.IsCut n := by
  cases src with
  | latin1 bytes => exact Nat.le_of_lt (lt_size_of_unit? hn)
  | utf16 units => exact Nat.le_of_lt (lt_size_of_unit? hn)
  | scalars chars => exact Nat.le_of_lt (lt_size_of_unit? hn)
  | utf8 text =>
    obtain ⟨as, bs, rfl, rfl⟩ := Utf8.exists_of_byte?_eq_zero (eq_zero_of_toNat_eq_zero hn)
    exact ⟨as, _, rfl, rfl⟩
  | sgml text =>
    obtain ⟨as, bs, rfl, rfl⟩ := Utf8.exists_of_byte?_eq_zero (eq_zero_of_toNat_eq_zero hn)
    exact ⟨as, _, rfl, rfl⟩

end Nul

/-- `dst` up to `f` holds what `src` holds up to `e`. -/
structure AlikeUpTo (src : Source) (e : Nat) (dst : Source) (f : Nat) : Prop where
  le : f ≤ e
  le_size : e ≤ src.size
  le_size' : f ≤ dst.size
  glyph?_eq : ∀ p ≤ f, dst.glyph? p f = src.glyph? p e
  unit?_eq : ∀ p < f, dst.unit? p = src.unit? p
  atEnd : src.atEnd f e = true

section AlikeUpTo

variable {src dst : Source} {e f n : Nat}

theorem alikeUpTo_take (h : src.IsCut e) : src.AlikeUpTo e (src.take e) e where
  le := Nat.le_refl e
  le_size := h.le_size
  le_size' := Nat.le_of_eq (size_take h).symm
  glyph?_eq p _ := glyph?_take h p
  unit?_eq _ hp := unit?_take h hp
  atEnd := by simp [Source.atEnd]

theorem alikeUpTo_self (h : e ≤ src.size) : src.AlikeUpTo e src e where
  le := Nat.le_refl e
  le_size := h
  le_size' := h
  glyph?_eq _ _ := rfl
  unit?_eq _ _ := rfl
  atEnd := by simp [Source.atEnd]

theorem alikeUpTo_nul (hn : src.unit? n = some 0) (hlt : n < e) (he : e ≤ src.size) :
    src.AlikeUpTo e src n where
  le := Nat.le_of_lt hlt
  le_size := he
  le_size' := Nat.le_of_lt (Nat.lt_of_lt_of_le hlt he)
  glyph?_eq _ hp := glyph?_before_nul hn hp hlt
  unit?_eq _ _ := rfl
  atEnd := by simp [Source.atEnd, hn]

theorem AlikeUpTo.mirrors (h : src.AlikeUpTo e dst f) : src.MirrorsUpTo e dst f id (· ≤ f) where
  lt_iff _ _ := Iff.rfl
  le_iff hp := ⟨fun _ => Nat.le_trans hp h.le, fun _ => hp⟩
  boundary_next hp hg := by
    rw [← h.glyph?_eq _ hp] at hg
    exact (glyph?_bounds hg).2
  glyph?_image {p} hp := by
    have hmirror : Glyph.mirror id p = id := by
      funext g
      simp [Glyph.mirror]
    rw [hmirror, Option.map_id_fun, id, id]
    exact h.glyph?_eq p hp

theorem AlikeUpTo.mirrorsLines (h : src.AlikeUpTo e dst f) :
    src.MirrorsLinesUpTo e dst f id (· ≤ f) where
  lineStart {p} hp := by
    cases p with
    | zero => rfl
    | succ p => rw [id, Nat.add_sub_cancel, h.unit?_eq p hp]
  lineEnd {p} hp := by
    rcases Nat.lt_or_eq_of_le hp with hlt | rfl
    · have hle := h.le
      have hin : decide (f ≤ p) = false := by simpa using hlt
      have hin' : decide (e ≤ p) = false := by
        rw [decide_eq_false_iff_not]
        omega
      rw [Source.atEnd, Source.atEnd, id, h.unit?_eq p hlt, hin, hin']
    · rw [h.atEnd]
      simp [Source.atEnd]

end AlikeUpTo

section TextEnd

variable {src : Source} {start : Nat} {stop : Option Nat}

/-- The first zero unit from `start` on, or the bound if there is none before it. -/
def textEnd (src : Source) (start : Nat) (stop : Option Nat) : Nat :=
  ((List.range' start (src.limit stop - start)).find? fun p => src.unit? p == some 0).getD
    (src.limit stop)

theorem limit_le_size (src : Source) (stop : Option Nat) : src.limit stop ≤ src.size := by
  cases stop with
  | none => exact Nat.le_refl _
  | some e => exact Nat.min_le_right e src.size

theorem textEnd_eq_or (src : Source) (start : Nat) (stop : Option Nat) :
    src.textEnd start stop = src.limit stop ∨
      src.unit? (src.textEnd start stop) = some 0 ∧ start ≤ src.textEnd start stop ∧
        src.textEnd start stop < src.limit stop := by
  rw [textEnd]
  cases hfind : (List.range' start (src.limit stop - start)).find? fun p =>
      src.unit? p == some 0 with
  | none => exact .inl rfl
  | some n =>
    right
    have hmem := List.mem_of_find?_eq_some hfind
    have hzero := List.find?_some hfind
    rw [List.mem_range'_1] at hmem
    rw [Option.getD_some]
    exact ⟨by simpa using hzero, hmem.1, by omega⟩

theorem alikeUpTo_textEnd (src : Source) (start : Nat) (stop : Option Nat) :
    src.AlikeUpTo (src.limit stop) src (src.textEnd start stop) := by
  have hsize := src.limit_le_size stop
  rcases src.textEnd_eq_or start stop with heq | ⟨hnul, _, hlt⟩
  · rw [heq]
    exact alikeUpTo_self hsize
  · exact alikeUpTo_nul hnul hlt hsize

theorem isCut_textEnd (h : src.IsCut (src.limit stop)) : src.IsCut (src.textEnd start stop) := by
  rcases src.textEnd_eq_or start stop with heq | ⟨hnul, _, _⟩
  · rwa [heq]
  · exact isCut_of_nul hnul

end TextEnd

end Source

end Recognition

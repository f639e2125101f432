import Recognition.Proofs.Sgml.CharacterNumber
import Recognition.Proofs.Sgml.Entities
import Recognition.Proofs.Truncation.Source

namespace Recognition.Sgml

/-- What a body stands for. -/
inductive Denotes : List Char → List Char → Prop
  | name {name scalars : List Char} (h : ⟨name, scalars⟩ ∈ entities) : Denotes name scalars
  | decimal {digits : List Char} {c : Char} (hdigits : Writes 10 digits c.toNat)
    (hc : c ≠ '\x00') : Denotes ('#' :: digits) [c]
  | hexadecimal {x : Char} {digits : List Char} {c : Char} (hx : x = 'x' ∨ x = 'X')
    (hdigits : Writes 16 digits c.toNat) (hc : c ≠ '\x00') : Denotes ('#' :: x :: digits) [c]

def bodyBreaks : List Char := [';', '&', '\x00', ' ', '\t', '\n', '\x0c', '\r']

variable {text body rest scalars number : List Char} {g : Glyph} {pos e width : Nat} {c : Char}

section Body

theorem notMem_bodyBreaks_iff : c ∉ bodyBreaks ↔ c ≠ ';' ∧ endsReference c = false := by
  simp only [bodyBreaks, endsReference, List.mem_cons, List.not_mem_nil, or_false, not_or,
    Bool.or_eq_false_iff, decide_eq_false_iff_not]
  tauto

theorem body?_eq_some_iff {cs : List Char} :
    body? cs = some (body, rest) ↔ cs = body ++ ';' :: rest ∧ ∀ c ∈ body, c ∉ bodyBreaks := by
  simp only [notMem_bodyBreaks_iff]
  constructor
  · intro h
    obtain ⟨hcs, hsemi, hends⟩ := body?_eq_some h
    refine ⟨hcs, ?_⟩
    intro c hc
    exact ⟨fun heq => hsemi (heq ▸ hc), hends c hc⟩
  · rintro ⟨rfl, hbody⟩
    apply body?_append
    · intro hsemi
      exact (hbody _ hsemi).1 rfl
    · intro c hc
      exact (hbody c hc).2

theorem number?_bind_scalar? {radix : Nat} (h : radix ≤ 16) {digits : List Char} :
    (number? radix digits).bind scalar? = some c ↔ Writes radix digits c.toNat ∧ c ≠ '\x00' := by
  simp only [Option.bind_eq_some_iff, number?_eq_some_iff h, scalar?_eq_some_iff]
  constructor
  · rintro ⟨n, hn, hc, rfl⟩
    exact ⟨hn, hc⟩
  · rintro ⟨hn, hc⟩
    exact ⟨c.toNat, hn, hc, rfl⟩

theorem Denotes.of_numbered? (h : numbered? number = some c) : Denotes ('#' :: number) [c] := by
  unfold numbered? at h
  split at h
  · obtain ⟨hdigits, hc⟩ := (number?_bind_scalar? (Nat.le_refl 16)).1 h
    exact .hexadecimal (.inl rfl) hdigits hc
  · obtain ⟨hdigits, hc⟩ := (number?_bind_scalar? (Nat.le_refl 16)).1 h
    exact .hexadecimal (.inr rfl) hdigits hc
  · obtain ⟨hdigits, hc⟩ := (number?_bind_scalar? (by decide)).1 h
    exact .decimal hdigits hc

theorem numbered?_decimal {digits : List Char} (h : ∀ d ∈ digits, digitValue d < 10) :
    numbered? digits = (number? 10 digits).bind scalar? := by
  -- No decimal number begins with the letter of the hexadecimal ones.
  rw [numbered?]
  · rintro hex rfl
    exact absurd (h 'x' List.mem_cons_self) (by decide)
  · rintro hex rfl
    exact absurd (h 'X' List.mem_cons_self) (by decide)

theorem meaning?_name {name scalars : List Char} (h : ⟨name, scalars⟩ ∈ entities) :
    meaning? name = some scalars := by
  unfold meaning?
  split
  · exact absurd rfl (wellFormed_of_mem h).not_number
  · exact scalarsOf?_name h

theorem meaning?_eq_some_iff : meaning? body = some scalars ↔ Denotes body scalars := by
  constructor
  · intro h
    unfold meaning? at h
    split at h
    · obtain ⟨c, hc, rfl⟩ := Option.map_eq_some_iff.1 h
      exact .of_numbered? hc
    · exact .name (mem_of_scalarsOf? h)
  · intro h
    cases h with
    | name h => exact meaning?_name h
    | decimal hdigits hc =>
      rw [meaning?, numbered?_decimal hdigits.lt_radix,
        (number?_bind_scalar? (by decide)).2 ⟨hdigits, hc⟩]
      rfl
    | hexadecimal hx hdigits hc =>
      have hread := (number?_bind_scalar? (Nat.le_refl 16)).2 ⟨hdigits, hc⟩
      rcases hx with rfl | rfl
      · rw [meaning?, numbered?, hread]
        rfl
      · rw [meaning?, numbered?, hread]
        rfl

theorem Denotes.length_scalars (h : Denotes body scalars) :
    scalars.length = 1 ∨ scalars.length = 2 := by
  cases h with
  | name h => exact (wellFormed_of_mem h).length_scalars
  | decimal => exact .inl rfl
  | hexadecimal => exact .inl rfl

theorem size_reference (body : List Char) :
    Utf8.size ('&' :: (body ++ [';'])) = Utf8.size body + 2 := by
  have hamp : Char.utf8Size '&' = 1 := rfl
  have hsemi : Char.utf8Size ';' = 1 := rfl
  rw [Utf8.size_cons, Utf8.size_append, Utf8.size_cons, Utf8.size_nil, hamp, hsemi]
  omega

theorem reference?_eq_some_iff {cs : List Char} :
    reference? cs = some (g, rest) ↔ ∃ body, cs = body ++ ';' :: rest ∧
      (∀ c ∈ body, c ∉ bodyBreaks) ∧ Denotes body g.scalars ∧
      g.width = Utf8.size ('&' :: (body ++ [';'])) := by
  simp only [reference?, Option.bind_eq_bind, Option.bind_eq_some_iff, Option.pure_def,
    size_reference]
  constructor
  · rintro ⟨⟨body, r⟩, hbody, scalars, hmeaning, g', hg, hr⟩
    obtain ⟨rfl, rfl⟩ := Prod.mk.inj (Option.some.inj hr)
    obtain ⟨hcs, hbreaks⟩ := body?_eq_some_iff.1 hbody
    obtain ⟨rfl, hwidth⟩ := Glyph.ofScalars?_eq_some_iff.1 hg
    exact ⟨body, hcs, hbreaks, meaning?_eq_some_iff.1 hmeaning, hwidth⟩
  · rintro ⟨body, hcs, hbreaks, hdenotes, hwidth⟩
    exact ⟨(body, rest), body?_eq_some_iff.2 ⟨hcs, hbreaks⟩, g.scalars,
      meaning?_eq_some_iff.2 hdenotes, g, Glyph.ofScalars?_eq_some_iff.2 ⟨rfl, hwidth⟩, rfl⟩

theorem exists_of_reference? (h : Source.reference? text pos e = some g) :
    ∃ as cs rest, text = as ++ '&' :: cs ∧ Utf8.size as = pos ∧ reference? cs = some (g, rest) ∧
      pos + g.width ≤ e := by
  unfold Source.reference? at h
  split at h
  · rename_i cs hlocate
    obtain ⟨as, rfl, rfl⟩ := Utf8.locate_eq_boundary_iff.1 hlocate
    obtain ⟨hg, hle⟩ := Option.filter_eq_some_iff.1 h
    obtain ⟨⟨g', rest⟩, href, rfl⟩ := Option.map_eq_some_iff.1 hg
    exact ⟨as, cs, rest, rfl, rfl, href, by simpa using hle⟩
  · cases h

theorem lt_min_size_iff {as body rest : List Char} {e : Nat} :
    Utf8.size as + 1 + Utf8.size body < min e (Utf8.size (as ++ '&' :: (body ++ ';' :: rest))) ↔
      Utf8.size as + Utf8.size ('&' :: (body ++ [';'])) ≤ e := by
  have hsize : Utf8.size (as ++ '&' :: (body ++ ';' :: rest)) =
      Utf8.size as + Utf8.size ('&' :: (body ++ [';'])) + Utf8.size rest := by
    simp
    omega
  rw [hsize, size_reference]
  omega

end Body

section Bytes

/-- How many bytes stand before the first `;`, if none of them gives the reference up. -/
def closingAt? : List UInt8 → Option Nat
  | [] => none
  | b :: bs =>
    if b = 0x3B then some 0
    else if endsReference (Char.ofNat b.toNat) then none
    else (closingAt? bs).map (· + 1)

/-- The text from one byte to another, if a character begins or the text ends at both. -/
def part? (text : List Char) (start stop : Nat) : Option (List Char) :=
  match Utf8.locate text start, Utf8.locate text stop with
  | .boundary rest, .boundary _ => some (Utf8.before rest (stop - start))
  | _, _ => none

/-- The reference at byte `pos`, its bytes read one by one and the number of a character in a
word. -/
def byteReference? (text : List Char) (pos e : Nat) : Option Glyph :=
  let bytes := Utf8.bytes text
  let stop := min e bytes.length
  if pos < stop ∧ bytes[pos]? = some 0x26 then do
    let close := (← closingAt? ((bytes.take stop).drop (pos + 1))) + (pos + 1)
    let body ← part? text (pos + 1) close
    Glyph.ofScalars? (← wordMeaning? body) (close + 1 - pos)
  else none

theorem closingAt?_append {bs : List UInt8}
    (h : ∀ b ∈ bs, b ≠ 0x3B ∧ endsReference (Char.ofNat b.toNat) = false) (rest : List UInt8)
    (n : Nat) : closingAt? ((bs ++ rest).take n) =
      (closingAt? (rest.take (n - bs.length))).map (· + bs.length) := by
  induction bs generalizing n with
  | nil => simp
  | cons b bs ih =>
    rw [List.forall_mem_cons] at h
    cases n with
    | zero => simp [closingAt?]
    | succ n =>
      rw [List.cons_append, List.take_succ_cons, closingAt?, if_neg h.1.1, h.1.2, ih h.2,
        List.length_cons, Nat.add_sub_add_right, Option.map_map]
      rfl

theorem toNat_of_endsReference (h : endsReference c = true) : c.toNat < 0x80 := by
  simp only [endsReference, Bool.or_eq_true, decide_eq_true_eq] at h
  rcases h with (((((rfl | rfl) | rfl) | rfl) | rfl) | rfl) | rfl <;> decide

theorem not_break_of_mem (hc : c ∉ bodyBreaks) : ∀ b ∈ String.utf8EncodeChar c,
    b ≠ 0x3B ∧ endsReference (Char.ofNat b.toNat) = false := by
  intro b hb
  rw [notMem_bodyBreaks_iff] at hc
  by_cases hascii : b.toNat < 0x80
  · have htoNat := Utf8.toNat_of_mem hb hascii
    rw [← htoNat, Char.ofNat_toNat]
    refine ⟨?_, hc.2⟩
    rintro rfl
    exact hc.1 (Char.toNat_inj.1 htoNat)
  · have hvalid : b.toNat.isValidChar := .inl (by have := b.toNat_lt; omega)
    have htoNat : (Char.ofNat b.toNat).toNat = b.toNat := by
      rw [Char.ofNat, dif_pos hvalid]
      rfl
    constructor
    · rintro rfl
      exact hascii (by decide)
    · cases hends : endsReference (Char.ofNat b.toNat) with
      | false => rfl
      | true => exact absurd (htoNat ▸ toNat_of_endsReference hends) hascii

theorem closingAt?_bytes (cs : List Char) (n : Nat) :
    closingAt? ((Utf8.bytes cs).take n) =
      ((body? cs).map fun r => Utf8.size r.1).filter (· < n) := by
  induction cs generalizing n with
  | nil => simp [Utf8.bytes, closingAt?, body?]
  | cons c cs ih =>
    have hcons : Utf8.bytes (c :: cs) = String.utf8EncodeChar c ++ Utf8.bytes cs := rfl
    by_cases hc : c ∈ bodyBreaks
    · simp only [bodyBreaks, List.mem_cons, List.not_mem_nil, or_false] at hc
      rcases hc with rfl | rfl | rfl | rfl | rfl | rfl | rfl | rfl <;> cases n <;> rfl
    · have hclass := notMem_bodyBreaks_iff.1 hc
      rw [hcons, closingAt?_append (not_break_of_mem hc), ih, String.length_utf8EncodeChar, body?,
        if_neg hclass.1, hclass.2]
      cases body? cs with
      | none => rfl
      | some r =>
        have hlt : Utf8.size r.1 < n - c.utf8Size ↔ Utf8.size (c :: r.1) < n := by
          rw [Utf8.size_cons]
          omega
        simp [Option.filter_some, hlt, Nat.add_comm]

theorem part?_append (as bs cs : List Char) :
    part? (as ++ (bs ++ cs)) (Utf8.size as) (Utf8.size as + Utf8.size bs) = some bs := by
  have hstop : Utf8.locate (as ++ (bs ++ cs)) (Utf8.size as + Utf8.size bs) = .boundary cs := by
    rw [← List.append_assoc, ← Utf8.size_append]
    exact Utf8.locate_size_append _ _
  rw [part?, Utf8.locate_size_append, hstop]
  simp only [Nat.add_sub_cancel_left, Utf8.before_append]

theorem getElem?_bytes_eq_amp_iff :
    (Utf8.bytes text)[pos]? = some 0x26 ↔ ∃ as cs, text = as ++ '&' :: cs ∧ Utf8.size as = pos := by
  rw [← Utf8.byte?_eq_getElem?]
  exact Utf8.byte?_eq_some_iff (c := '&') (by decide)

theorem drop_take_bytes (as cs : List Char) (n : Nat) :
    ((Utf8.bytes (as ++ '&' :: cs)).take n).drop (Utf8.size as + 1) =
      (Utf8.bytes cs).take (n - (Utf8.size as + 1)) := by
  have hsplit : Utf8.bytes (as ++ '&' :: cs) = Utf8.bytes (as ++ ['&']) ++ Utf8.bytes cs := by
    rw [← Utf8.bytes_append, List.append_assoc]
    rfl
  have hsize : Utf8.size as + 1 = (Utf8.bytes (as ++ ['&'])).length := by
    rw [Utf8.length_bytes, Utf8.size_append]
    rfl
  rw [List.drop_take, hsplit, hsize, List.drop_left]

theorem filter_reference? {cs : List Char} (h : body? cs = some (body, rest)) (pos e : Nat) :
    ((reference? cs).map Prod.fst).filter (fun g => pos + g.width ≤ e) =
      if pos + (Utf8.size body + 2) ≤ e then
        (meaning? body).bind fun scalars => Glyph.ofScalars? scalars (Utf8.size body + 2)
      else none := by
  simp only [reference?, h, Option.bind_eq_bind, Option.bind_some, Option.pure_def]
  cases meaning? body with
  | none => simp
  | some scalars =>
    cases hg : Glyph.ofScalars? scalars (Utf8.size body + 2) with
    | none => simp [hg]
    | some g =>
      have hwidth := (Glyph.ofScalars?_eq_some_iff.1 hg).2
      simp [hg, Option.filter_some, hwidth]

/-- After an `&`, bytes and characters are read alike. -/
theorem byteReference?_append (as cs : List Char) (e : Nat) :
    byteReference? (as ++ '&' :: cs) (Utf8.size as) e =
      ((reference? cs).map Prod.fst).filter fun g => Utf8.size as + g.width ≤ e := by
  have hbyte := getElem?_bytes_eq_amp_iff.2 ⟨as, cs, rfl, rfl⟩
  simp only [byteReference?, hbyte, and_true, drop_take_bytes, closingAt?_bytes, wordMeaning?_eq,
    Utf8.length_bytes]
  cases hbody : body? cs with
  | none => simp [reference?, hbody]
  | some r =>
    obtain ⟨body, rest⟩ := r
    obtain ⟨rfl, -⟩ := body?_eq_some_iff.1 hbody
    have hpart : part? (as ++ '&' :: (body ++ ';' :: rest)) (Utf8.size as + 1)
        (Utf8.size body + (Utf8.size as + 1)) = some body := by
      have hread := part?_append (as ++ ['&']) body (';' :: rest)
      rw [List.append_assoc, List.cons_append, List.nil_append, Utf8.size_append, Nat.add_comm _
        (Utf8.size body)] at hread
      exact hread
    have hwidth : Utf8.size body + (Utf8.size as + 1) + 1 - Utf8.size as = Utf8.size body + 2 := by
      omega
    have hle : Utf8.size as + 1 + Utf8.size body <
        min e (Utf8.size (as ++ '&' :: (body ++ ';' :: rest))) ↔
          Utf8.size as + (Utf8.size body + 2) ≤ e := by
      rw [lt_min_size_iff, size_reference]
    generalize min e (Utf8.size (as ++ '&' :: (body ++ ';' :: rest))) = stop at hle ⊢
    rw [filter_reference? hbody, Option.map_some, Option.filter_some]
    -- Only the end of the search is left to compare: the `;` stands before it or not.
    by_cases hin : Utf8.size as + (Utf8.size body + 2) ≤ e
    · have hlt := hle.2 hin
      rw [if_pos hin, if_pos (by omega), if_pos (by simp; omega)]
      simp only [Option.bind_eq_bind, Option.bind_some, hpart, hwidth]
    · have hnot := mt hle.1 hin
      rw [if_neg hin]
      split
      · rw [if_neg (by simp; omega)]
        rfl
      · rfl

theorem byteReference?_eq (text : List Char) (pos e : Nat) :
    byteReference? text pos e = Source.reference? text pos e := by
  by_cases hamp : ∃ as cs, text = as ++ '&' :: cs ∧ Utf8.size as = pos
  · obtain ⟨as, cs, rfl, rfl⟩ := hamp
    rw [byteReference?_append, reference?_append]
  · have hbyte : (Utf8.bytes text)[pos]? ≠ some 0x26 := mt getElem?_bytes_eq_amp_iff.1 hamp
    have hnone : Source.reference? text pos e = none := by
      cases h : Source.reference? text pos e with
      | none => rfl
      | some g =>
        obtain ⟨as, cs, rest, htext, hpos, -⟩ := exists_of_reference? h
        exact absurd ⟨as, cs, htext, hpos⟩ hamp
    rw [hnone]
    exact if_neg fun h => hbyte h.2

end Bytes

/-- A text is read as a reference at byte `pos` exactly where `&` stands there, `;` stands before
the bound and the end of the text, and the body between them is free of what ends it and is a name
of the table or digits that write the number of a character. The glyph holds what the body stands
for and takes the bytes from `&` to `;`. Words of 32 bits make no difference, however many digits
there are. -/
theorem reference_syntax (text : List Char) (pos e : Nat) (scalars : List Char) (width : Nat) :
    ((∃ g, Source.reference? text pos e = some g ∧ g.scalars = scalars ∧ g.width = width) ↔
      ∃ as body rest, text = as ++ '&' :: (body ++ ';' :: rest) ∧ Utf8.size as = pos ∧
        pos + 1 + Utf8.size body < min e (Utf8.size text) ∧ (∀ c ∈ body, c ∉ bodyBreaks) ∧
        Denotes body scalars ∧ width = Utf8.size ('&' :: (body ++ [';']))) ∧
      byteReference? text pos e = Source.reference? text pos e := by
  refine ⟨⟨?_, ?_⟩, byteReference?_eq text pos e⟩
  · rintro ⟨g, hg, rfl, rfl⟩
    obtain ⟨as, cs, rest, rfl, rfl, href, hle⟩ := exists_of_reference? hg
    obtain ⟨body, rfl, hbreaks, hdenotes, hwidth⟩ := reference?_eq_some_iff.1 href
    rw [hwidth] at hle
    exact ⟨as, body, rest, rfl, rfl, lt_min_size_iff.2 hle, hbreaks, hdenotes, hwidth⟩
  · rintro ⟨as, body, rest, rfl, rfl, hlt, hbreaks, hdenotes, rfl⟩
    obtain ⟨g, rfl, hwidth⟩ := Glyph.exists_of_length hdenotes.length_scalars
      (Utf8.size ('&' :: (body ++ [';'])))
    have href : reference? (body ++ ';' :: rest) = some (g, rest) :=
      reference?_eq_some_iff.2 ⟨body, rfl, hbreaks, hdenotes, hwidth⟩
    have hle := lt_min_size_iff.1 hlt
    rw [← hwidth] at hle
    refine ⟨g, ?_, rfl, hwidth⟩
    rw [reference?_append, href, Option.map_some, Option.filter_some, if_pos (by simpa using hle)]

/-- The number is that of `A`, but for what is beyond 32 bits. -/
example : Source.reference? "&#x100000041;".toList 0 13 = none := by decide +kernel

end Recognition.Sgml

import Recognition.Proofs.Sgml.Decoding
import Recognition.Proofs.Sgml.Entities
import Recognition.Sgml.Encoding

namespace Recognition.Sgml

section Numbers

theorem numberFrom?_append (radix n : Nat) (as bs : List Char) :
    numberFrom? radix n (as ++ bs) =
      (numberFrom? radix n as).bind fun m => numberFrom? radix m bs := by
  induction as generalizing n with
  | nil => rfl
  | cons c as ih =>
    rw [List.cons_append, numberFrom?, numberFrom?, Option.bind_assoc]
    congr 1
    funext d
    exact ih _

theorem digit?_hexDigit : ∀ d < 16, digit? 16 (hexDigit d) = some d := by decide

theorem hexDigit_allowed : ∀ d < 16, hexDigit d ≠ ';' ∧ endsReference (hexDigit d) = false := by
  decide

theorem hexDigit_ascii : ∀ d < 16, (hexDigit d).toNat < 0x80 := by decide

theorem numberFrom?_hexDigits (n : Nat) : numberFrom? 16 0 (hexDigits n) = some n := by
  fun_induction hexDigits n with
  | case1 n hn =>
    rw [numberFrom?, digit?_hexDigit n hn]
    simp [numberFrom?]
  | case2 n hn ih =>
    rw [numberFrom?_append, ih, Option.bind_some, numberFrom?,
      digit?_hexDigit _ (Nat.mod_lt n (by decide)), Option.bind_some, numberFrom?]
    congr 1
    omega

theorem exists_of_mem_hexDigits {n : Nat} {c : Char} (h : c ∈ hexDigits n) :
    ∃ d < 16, c = hexDigit d := by
  fun_induction hexDigits n with
  | case1 n hn => exact ⟨n, hn, List.mem_singleton.1 h⟩
  | case2 n hn ih =>
    rcases List.mem_append.1 h with h | h
    · exact ih h
    · exact ⟨n % 16, Nat.mod_lt n (by decide), List.mem_singleton.1 h⟩

theorem hexDigits_ne_nil (n : Nat) : hexDigits n ≠ [] := by
  rw [hexDigits]
  split <;> simp

theorem number?_hexDigits (n : Nat) : number? 16 (hexDigits n) = some n := by
  rw [number?, if_neg (by simpa using hexDigits_ne_nil n), numberFrom?_hexDigits]

end Numbers

/-- What is written between `&` and `;` for some scalars. -/
structure IsBodyOf (body scalars : List Char) : Prop where
  ascii : ∀ c ∈ body, c.toNat < 0x80
  allowed : ∀ c ∈ body, c ≠ ';' ∧ endsReference c = false
  meaning : meaning? body = some scalars
  length_scalars : scalars.length = 1 ∨ scalars.length = 2

theorem IsBodyOf.exists_reference? {body scalars : List Char} (h : IsBodyOf body scalars)
    (rest : List Char) :
    ∃ g, g.scalars = scalars ∧ reference? (body ++ ';' :: rest) = some (g, rest) := by
  have hsplit : body? (body ++ ';' :: rest) = some (body, rest) := by
    apply body?_append
    · intro hsemi
      exact (h.allowed _ hsemi).1 rfl
    · intro c hc
      exact (h.allowed c hc).2
  obtain ⟨g, hscalars, hwidth⟩ := Glyph.exists_of_length h.length_scalars (Utf8.size body + 2)
  have hg := Glyph.ofScalars?_eq_some_iff.2 ⟨hscalars, hwidth⟩
  refine ⟨g, hscalars, ?_⟩
  rw [reference?, hsplit]
  simp [h.meaning, hg]

theorem isBodyOf_name {scalars name : List Char} (h : nameOf? scalars = some name) :
    IsBodyOf name scalars := by
  obtain ⟨hname, hscalars⟩ := nameOf?_sound h
  refine ⟨toNat_lt_of_nameOf? h, hname.allowed, ?_, hname.length_scalars⟩
  unfold meaning?
  split
  · exact absurd rfl hname.not_number
  · exact hscalars

theorem isBodyOf_hexDigits {c : Char} (h : c ≠ '\x00') :
    IsBodyOf ('#' :: 'x' :: hexDigits c.toNat) [c] where
  ascii := by
    simp only [List.forall_mem_cons]
    refine ⟨by decide, by decide, ?_⟩
    intro d hd
    obtain ⟨n, hn, rfl⟩ := exists_of_mem_hexDigits hd
    exact hexDigit_ascii n hn
  allowed := by
    simp only [List.forall_mem_cons]
    refine ⟨by decide, by decide, ?_⟩
    intro d hd
    obtain ⟨n, hn, rfl⟩ := exists_of_mem_hexDigits hd
    exact hexDigit_allowed n hn
  meaning := by
    have hscalar : scalar? c.toNat = some c := scalar?_eq_some_iff.2 ⟨h, rfl⟩
    simp [meaning?, numbered?, number?_hexDigits, hscalar]
  length_scalars := .inl rfl

theorem encodeScalar_cases (c : Char) :
    (∃ body, IsBodyOf body [c] ∧ encodeScalar c = '&' :: body ++ [';']) ∨
      (encodeScalar c = [c] ∧ c.toNat < 0x80 ∧ nameOf? [c] = none) := by
  unfold encodeScalar
  cases hname : nameOf? [c] with
  | some name => exact .inl ⟨name, isBodyOf_name hname, rfl⟩
  | none =>
    by_cases hascii : c.toNat < 0x80
    · exact .inr ⟨if_pos hascii, hascii, rfl⟩
    · have hnul : c ≠ '\x00' := by
        intro h
        rw [h] at hascii
        exact hascii (by decide)
      exact .inl ⟨_, isBodyOf_hexDigits hnul, if_neg hascii⟩

theorem encodeCluster_cases (what : EscapeSet) (cluster : List Char) :
    (∃ body, IsBodyOf body cluster ∧ encodeCluster what cluster = '&' :: body ++ [';']) ∨
      (∃ c, cluster = [c] ∧ isVerbatim what c = true ∧ encodeCluster what cluster = [c]) ∨
      encodeCluster what cluster = cluster.flatMap encodeScalar := by
  unfold encodeCluster
  split
  · rename_i c
    by_cases hverbatim : isVerbatim what c = true
    · exact .inr (.inl ⟨c, rfl, hverbatim, if_pos hverbatim⟩)
    · exact .inr (.inr (by simp [hverbatim]))
  · cases hname : nameOf? cluster with
    | some name => exact .inl ⟨name, isBodyOf_name hname, rfl⟩
    | none => exact .inr (.inr rfl)

theorem decode_reference {body scalars : List Char} (h : IsBodyOf body scalars)
    (rest : List Char) :
    decode .none ('&' :: body ++ [';'] ++ rest) = scalars ++ decode .none rest := by
  obtain ⟨g, rfl, href⟩ := h.exists_reference? rest
  rw [← unkept?_none] at href
  simpa using decode_of_unkept? href

theorem decode_verbatim {c : Char} (h : c ≠ '&') (rest : List Char) :
    decode .none ([c] ++ rest) = [c] ++ decode .none rest :=
  decode_cons (unkept?_eq_none_of_ne h rest)

theorem decode_encodeScalar (c : Char) (rest : List Char) :
    decode .none (encodeScalar c ++ rest) = [c] ++ decode .none rest := by
  rcases encodeScalar_cases c with ⟨body, hbody, heq⟩ | ⟨heq, _, hname⟩
  · rw [heq, decode_reference hbody]
  · rw [heq, decode_verbatim (ne_amp_of_nameOf? hname)]

theorem decode_flatMap {α : Type} {f g : α → List Char}
    (h : ∀ x rest, decode .none (f x ++ rest) = g x ++ decode .none rest) (xs : List α)
    (rest : List Char) :
    decode .none (xs.flatMap f ++ rest) = xs.flatMap g ++ decode .none rest := by
  induction xs with
  | nil => rfl
  | cons x xs ih =>
    rw [List.flatMap_cons, List.append_assoc, h, ih, List.flatMap_cons, List.append_assoc]

theorem decode_encodeCluster (what : EscapeSet) (cluster rest : List Char) :
    decode .none (encodeCluster what cluster ++ rest) = cluster ++ decode .none rest := by
  rcases encodeCluster_cases what cluster with ⟨body, hbody, heq⟩ | ⟨c, rfl, hverbatim, heq⟩ | heq
  · rw [heq, decode_reference hbody]
  · have hamp : c ≠ '&' := by
      rintro rfl
      simp [isVerbatim] at hverbatim
    rw [heq, decode_verbatim hamp]
  · have hdecode := decode_flatMap decode_encodeScalar cluster rest
    rw [heq]
    simpa using hdecode

/-- Decoding undoes encoding. -/
theorem decode_encode (what : EscapeSet) (text : List Char) :
    decode .none (encode what text) = text := by
  have hdecode := decode_flatMap (decode_encodeCluster what) (clusters text) []
  simpa [encode, flatten_clusters, ← List.flatten_eq_flatMap] using hdecode

end Recognition.Sgml

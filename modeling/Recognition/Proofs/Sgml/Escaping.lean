import Recognition.Proofs.Sgml.Referring
import Recognition.Proofs.Sgml.RoundTrip

namespace Recognition.Sgml

/-- A character that may stand for itself where the delimiters of `what` are escaped. -/
structure IsInert (what : EscapeSet) (c : Char) : Prop where
  ascii : c.toNat < 0x80
  ne_amp : c ≠ '&'
  uncovered : what.covers c = false
  unnamed : what.full = true → nameOf? [c] = none

/-- A text of references and inert characters. -/
inductive Escaped (what : EscapeSet) : List Char → Prop
  | nil : Escaped what []
  | verbatim {c : Char} {cs : List Char} (hc : IsInert what c) (hcs : Escaped what cs) :
    Escaped what (c :: cs)
  | reference {body scalars rest : List Char} (hbody : IsBodyOf body scalars)
    (hrest : Escaped what rest) : Escaped what ('&' :: (body ++ ';' :: rest))

variable {what : EscapeSet}

section Pieces

theorem isSome_nameOf?_of_delimiter {c : Char} {d : Delimiter}
    (h : Delimiter.ofChar? c = some d) : (nameOf? [c]).isSome = true := by
  unfold Delimiter.ofChar? at h
  split at h
  case h_17 => cases h
  all_goals decide +kernel

theorem uncovered_of_nameOf? {c : Char} (h : nameOf? [c] = none) : what.covers c = false := by
  rw [EscapeSet.covers]
  split
  · rename_i d hd
    have hsome := isSome_nameOf?_of_delimiter hd
    rw [h] at hsome
    cases hsome
  · rfl

theorem IsBodyOf.escaped {body scalars rest : List Char} (h : IsBodyOf body scalars)
    (hrest : Escaped what rest) : Escaped what ('&' :: body ++ [';'] ++ rest) := by
  simpa using Escaped.reference h hrest

theorem escaped_encodeScalar (c : Char) {rest : List Char} (hrest : Escaped what rest) :
    Escaped what (encodeScalar c ++ rest) := by
  rcases encodeScalar_cases c with ⟨body, hbody, heq⟩ | ⟨heq, hascii, hname⟩
  · rw [heq]
    exact hbody.escaped hrest
  · rw [heq]
    exact .verbatim ⟨hascii, ne_amp_of_nameOf? hname, uncovered_of_nameOf? hname, fun _ => hname⟩
      hrest

theorem escaped_flatMap {α : Type} {f : α → List Char}
    (h : ∀ x {rest : List Char}, Escaped what rest → Escaped what (f x ++ rest)) (xs : List α)
    {rest : List Char} (hrest : Escaped what rest) : Escaped what (xs.flatMap f ++ rest) := by
  induction xs with
  | nil => exact hrest
  | cons x xs ih =>
    rw [List.flatMap_cons, List.append_assoc]
    exact h x ih

theorem isInert_of_isVerbatim {c : Char} (h : isVerbatim what c = true) : IsInert what c := by
  simp only [isVerbatim, Bool.and_eq_true, decide_eq_true_eq, Bool.not_eq_eq_eq_not, Bool.not_true]
    at h
  obtain ⟨⟨⟨hascii, hamp⟩, hfull⟩, huncovered⟩ := h
  refine ⟨hascii, hamp, huncovered, ?_⟩
  intro h
  rw [hfull] at h
  cases h

theorem escaped_encodeCluster (cluster : List Char) {rest : List Char}
    (hrest : Escaped what rest) : Escaped what (encodeCluster what cluster ++ rest) := by
  rcases encodeCluster_cases what cluster with ⟨body, hbody, heq⟩ | ⟨c, _, hverbatim, heq⟩ | heq
  · rw [heq]
    exact hbody.escaped hrest
  · rw [heq]
    exact .verbatim (isInert_of_isVerbatim hverbatim) hrest
  · rw [heq]
    exact escaped_flatMap escaped_encodeScalar cluster hrest

theorem escaped_encode (what : EscapeSet) (text : List Char) : Escaped what (encode what text) := by
  have hescaped := escaped_flatMap escaped_encodeCluster (clusters text) (@Escaped.nil what)
  rwa [List.append_nil] at hescaped

end Pieces

namespace Escaped

variable {text : List Char}

theorem ascii (h : Escaped what text) : ∀ c ∈ text, c.toNat < 0x80 := by
  induction h with
  | nil => simp
  | verbatim hc hcs ih =>
    rw [List.forall_mem_cons]
    exact ⟨hc.ascii, ih⟩
  | reference hbody hrest ih =>
    simp only [List.forall_mem_cons, List.forall_mem_append]
    exact ⟨by decide, hbody.ascii, by decide, ih⟩

theorem referring (h : Escaped what text) :
    Referring (fun _ => True) text := by
  induction h with
  | nil => exact .nil
  | verbatim hc hcs ih => exact .plain hc.ne_amp ih
  | @reference body scalars rest hbody hrest ih =>
    obtain ⟨g, -, hg⟩ := hbody.exists_reference? rest
    exact .reference hg trivial ih

theorem exists_reference? (h : Escaped what text) {as bs : List Char}
    (htext : text = as ++ '&' :: bs) : ∃ g rest, reference? bs = some (g, rest) := by
  obtain ⟨g, rest, hg, -⟩ := h.referring.exists_reference? htext
  exact ⟨g, rest, hg⟩

theorem isInert_of_mem (h : Escaped what text) {pos : Nat} {chars : List Char}
    (hchars : .text chars ∈ segmentsFrom .none pos text) : ∀ c ∈ chars, IsInert what c := by
  induction h generalizing pos chars with
  | nil =>
    rw [segmentsFrom_nil] at hchars
    cases hchars
  | @verbatim c cs hc hcs ih =>
    rcases segmentsFrom_plain (unkept?_eq_none_of_ne hc.ne_amp cs) pos with
      hown | ⟨run, rest, hrun, hmore⟩
    · rw [hown, List.mem_cons, Segment.text.injEq] at hchars
      rcases hchars with rfl | hchars
      · simpa using hc
      · exact ih hchars
    · rw [hmore, List.mem_cons, Segment.text.injEq] at hchars
      rcases hchars with rfl | hchars
      · rw [List.forall_mem_cons]
        exact ⟨hc, ih (hrun ▸ List.mem_cons_self)⟩
      · exact ih (hrun ▸ List.mem_cons_of_mem _ hchars)
  | @reference body scalars rest hbody hrest ih =>
    obtain ⟨g, _, hg⟩ := hbody.exists_reference? rest
    rw [← unkept?_none] at hg
    rw [segmentsFrom_of_unkept? hg, List.mem_cons] at hchars
    rcases hchars with hchars | hchars
    · cases hchars
    · exact ih hchars

end Escaped

/-- An encoded text is ASCII, an `&` in it begins a reference that is read where it stands, and what
stands outside of references is neither `&` nor to be escaped. -/
theorem encode_safe (what : EscapeSet) (text : List Char) :
    (∀ c ∈ encode what text, c.toNat < 0x80) ∧
      (∀ as bs, encode what text = as ++ '&' :: bs →
        ∃ g, Source.reference? (encode what text) (Utf8.size as) (Utf8.size (encode what text)) =
          some g) ∧
      ∀ chars, .text chars ∈ segments .none (encode what text) →
        ∀ c ∈ chars, c ≠ '&' ∧ what.covers c = false ∧ (what.full = true → nameOf? [c] = none) := by
  have hescaped := escaped_encode what text
  refine ⟨hescaped.ascii, ?_, ?_⟩
  · intro as bs hsplit
    obtain ⟨g, rest, hg⟩ := hescaped.exists_reference? hsplit
    have hsize := size_of_reference? hg
    have hend : Utf8.size as + g.width ≤ Utf8.size as + Utf8.size ('&' :: bs) := by omega
    refine ⟨g, ?_⟩
    rw [hsplit, reference?_append, hg, Utf8.size_append]
    simp only [Option.map_some, Option.filter_some, hend, decide_true, if_true]
  · intro chars hchars c hc
    have hinert := hescaped.isInert_of_mem hchars c hc
    exact ⟨hinert.ne_amp, hinert.uncovered, hinert.unnamed⟩

/-- A delimiter is escaped before a combining mark too. -/
theorem encode_safe_before_mark :
    encode (.of [.ltGt]) ['<', '\u0338', 'a'] =
        ['&', 'l', 't', ';', '&', '#', 'x', '3', '3', '8', ';', 'a'] ∧
      (∃ g, Source.reference? (encode (.of [.ltGt]) ['<', '\u0338', 'a']) 4 12 = some g) ∧
      ∀ chars, .text chars ∈ segments .none (encode (.of [.ltGt]) ['<', '\u0338', 'a']) →
        '<' ∉ chars := by
  have hencode : encode (.of [.ltGt]) ['<', '\u0338', 'a'] =
      ['&', 'l', 't', ';', '&', '#', 'x', '3', '3', '8', ';', 'a'] := by decide +kernel
  obtain ⟨_, hreference, htext⟩ := encode_safe (.of [.ltGt]) ['<', '\u0338', 'a']
  have hsecond := hreference ['&', 'l', 't', ';'] ['#', 'x', '3', '3', '8', ';', 'a'] hencode
  have hsize : Utf8.size (encode (.of [.ltGt]) ['<', '\u0338', 'a']) = 12 := by
    rw [hencode]
    rfl
  rw [hsize] at hsecond
  refine ⟨hencode, hsecond, ?_⟩
  intro chars hchars hlt
  have huncovered := (htext chars hchars '<' hlt).2.1
  revert huncovered
  decide

end Recognition.Sgml

import Recognition.Proofs.Sgml.Escaping

namespace Recognition.Sgml

variable {p : Glyph → Prop} {keep : EscapeSet} {text body rest : List Char} {g : Glyph}

section Delimiters

theorem all_delimiters_single :
    entities.all (fun e => e.scalars.length = 1 ||
      e.scalars.all fun c => Delimiter.ofChar? c = none) = true := by
  decide +kernel

theorem eq_singleton_of_meaning? {scalars : List Char} (h : meaning? body = some scalars) {c : Char}
    (hc : c ∈ scalars) {d : Delimiter} (hd : Delimiter.ofChar? c = some d) : scalars = [c] := by
  have single (hlength : scalars.length = 1) : scalars = [c] := by
    obtain ⟨c', rfl⟩ := List.length_eq_one_iff.1 hlength
    rw [List.mem_singleton.1 hc]
  unfold meaning? at h
  split at h
  · obtain ⟨c', -, rfl⟩ := Option.map_eq_some_iff.1 h
    exact single rfl
  · obtain ⟨e, he, rfl⟩ := Option.map_eq_some_iff.1 h
    have hentity := List.all_eq_true.1 all_delimiters_single e (List.mem_of_find?_eq_some he)
    rw [Bool.or_eq_true, decide_eq_true_eq, List.all_eq_true] at hentity
    rcases hentity with hlength | hnone
    · exact single hlength
    · have hcnone := hnone c hc
      rw [hd] at hcnone
      cases hcnone

theorem scalars_eq_singleton {cs : List Char} (h : reference? cs = some (g, rest)) {c : Char}
    (hc : c ∈ g.scalars) {d : Delimiter} (hd : Delimiter.ofChar? c = some d) : g.scalars = [c] := by
  simp only [reference?, Option.bind_eq_bind, Option.bind_eq_some_iff, Option.pure_def] at h
  obtain ⟨_, _, scalars, hmeaning, g', hg, hr⟩ := h
  obtain ⟨rfl, _⟩ := Prod.mk.inj (Option.some.inj hr)
  obtain ⟨rfl, -⟩ := Glyph.ofScalars?_eq_some_iff.1 hg
  exact eq_singleton_of_meaning? hmeaning hc hd

theorem exists_delimiter_of_covers {c : Char} (h : keep.covers c = true) :
    ∃ d, Delimiter.ofChar? c = some d := by
  unfold EscapeSet.covers at h
  split at h
  · exact ⟨_, by assumption⟩
  · cases h

/-- The glyph is a delimiter of `keep`. -/
def IsKept (keep : EscapeSet) (g : Glyph) : Prop :=
  ∃ c, g.single? = some c ∧ keep.covers c = true

theorem isKept_iff {cs : List Char} (h : reference? cs = some (g, rest)) :
    IsKept keep g ↔ keep.covers g.base = true := by
  constructor
  · rintro ⟨c, hc, hcovers⟩
    rw [Glyph.single?_eq_some_iff, Glyph.scalars, List.cons.injEq] at hc
    rwa [hc.1]
  · intro hcovers
    obtain ⟨d, hd⟩ := exists_delimiter_of_covers hcovers
    have hscalars := scalars_eq_singleton h List.mem_cons_self hd
    exact ⟨g.base, Glyph.single?_eq_some_iff.2 hscalars, hcovers⟩

end Delimiters

section Partial

theorem decode_append_of_notMem (keep : EscapeSet) {as : List Char} (has : '&' ∉ as)
    (bs : List Char) :
    decode keep (as ++ bs) = as ++ decode keep bs := by
  induction as with
  | nil => rfl
  | cons c as ih =>
    rw [List.mem_cons, not_or] at has
    rw [List.cons_append, decode_cons (unkept?_eq_none_of_ne (Ne.symm has.1) _), ih has.2,
      List.cons_append]

theorem unkept?_eq_some (hg : reference? (body ++ ';' :: rest) = some (g, rest))
    (hkeep : keep.covers g.base = false) :
    unkept? keep ('&' :: (body ++ ';' :: rest)) = some (g, rest) := by
  simp [unkept?, hg, Option.filter, hkeep]

theorem decode_kept (hg : reference? (body ++ ';' :: rest) = some (g, rest))
    (hkeep : keep.covers g.base = true) :
    decode keep ('&' :: (body ++ ';' :: rest)) = '&' :: (body ++ ';' :: decode keep rest) := by
  have hnone : unkept? keep ('&' :: (body ++ ';' :: rest)) = none := by
    simp [unkept?, hg, Option.filter, hkeep]
  have hafter := decode_append_of_notMem keep (amp_notMem_body hg) rest
  rw [List.append_assoc, List.singleton_append, List.append_assoc, List.singleton_append] at hafter
  rw [decode_cons hnone, hafter]

theorem Referring.decode_eq_self (h : Referring (IsKept keep) text) : decode keep text = text := by
  induction h with
  | nil => exact decode_nil
  | plain hc hcs ih => rw [decode_cons (unkept?_eq_none_of_ne hc _), ih]
  | @reference cs rest g hg hp hrest ih =>
    obtain ⟨body, rfl, -⟩ := exists_body_of_reference? hg
    rw [decode_kept hg ((isKept_iff hg).1 hp), ih]

theorem Referring.decode (hamp : keep.covers '&' = true) (h : Referring p text) :
    Referring (IsKept keep) (decode keep text) ∧
      Sgml.decode .none (Sgml.decode keep text) = Sgml.decode .none text := by
  -- Nothing that is decoded is an `&`, so what is left stands before and after it as it did.
  induction h with
  | nil =>
    rw [decode_nil]
    exact ⟨.nil, rfl⟩
  | @plain c cs hc hcs ih =>
    rw [decode_cons (unkept?_eq_none_of_ne hc _), decode_cons (unkept?_eq_none_of_ne hc _),
      decode_cons (unkept?_eq_none_of_ne hc _), ih.2]
    exact ⟨.plain hc ih.1, rfl⟩
  | @reference cs rest g hg hp hrest ih =>
    obtain ⟨body, rfl, hbody⟩ := exists_body_of_reference? hg
    have hwhole (rest' : List Char) :
        Sgml.decode .none ('&' :: (body ++ ';' :: rest')) =
          g.scalars ++ Sgml.decode .none rest' := by
      apply decode_of_unkept?
      rw [unkept?_none]
      exact hbody rest'
    cases hkeep : keep.covers g.base with
    | true =>
      rw [decode_kept hg hkeep, hwhole, hwhole, ih.2]
      exact ⟨.reference (hbody _) ((isKept_iff hg).2 hkeep) ih.1, rfl⟩
    | false =>
      have hplain : '&' ∉ g.scalars := by
        intro hmem
        have hscalars := scalars_eq_singleton hg hmem rfl
        rw [Glyph.scalars, List.cons.injEq] at hscalars
        rw [hscalars.1, hamp] at hkeep
        cases hkeep
      rw [decode_of_unkept? (unkept?_eq_some hg hkeep), decode_append_of_notMem _ hplain, hwhole,
        ih.2]
      exact ⟨ih.1.append_plain hplain, rfl⟩

/-- A text whose every `&` begins a reference, as in every encoded text, may be decoded in part: if
references to `&` are left, what is left is decoded to what the text is, decoding in part once more
changes nothing, and every `&` begins a reference to a delimiter that was to be left. -/
theorem partly_decoded (keep : EscapeSet) (hamp : keep.contains (.of [.amp]) = true) :
    (∀ what text, AmpsRefer (fun _ => True) (encode what text)) ∧
      ∀ text, AmpsRefer (fun _ => True) text →
        let left := decode keep text
        decode .none left = decode .none text ∧ decode keep left = left ∧
          AmpsRefer (fun g => ∃ c, g.single? = some c ∧ keep.covers c = true) left := by
  constructor
  · intro what text
    exact referring_iff.1 (escaped_encode what text).referring
  · intro text htext
    have hcovers : keep.covers '&' = true := EscapeSet.covers_of_contains hamp rfl
    obtain ⟨hleft, hdecode⟩ := (referring_iff.2 htext).decode hcovers
    exact ⟨hdecode, hleft.decode_eq_self, referring_iff.1 hleft⟩

/-- An `&` that would make a reference with what comes after it is left. -/
theorem partly_decoded_before_name :
    let text := ['&', 'a', 'm', 'p', ';', 'l', 't', ';', '&', 'l', 't', ';']
    AmpsRefer (fun _ => True) text ∧ (EscapeSet.of [.amp]).contains (.of [.amp]) = true ∧
      decode .none ['&', 'a', 'm', 'p', ';', 'l', 't', ';', '<'] = ['&', 'l', 't', ';', '<'] ∧
      decode (.of [.amp]) ['&', 'a', 'm', 'p', ';', 'l', 't', ';', '<'] =
        ['&', 'a', 'm', 'p', ';', 'l', 't', ';', '<'] := by
  intro text
  have htext : AmpsRefer (fun _ => True) text := by
    rw [← referring_iff]
    have hamp : reference? ['a', 'm', 'p', ';', 'l', 't', ';', '&', 'l', 't', ';'] =
        some (⟨'&', none, 5⟩, ['l', 't', ';', '&', 'l', 't', ';']) := by decide +kernel
    have hlt : reference? ['l', 't', ';'] = some (⟨'<', none, 4⟩, []) := by decide +kernel
    exact .reference hamp trivial
      (.append_plain (show '&' ∉ ['l', 't', ';'] by decide) (.reference hlt trivial .nil))
  have hleft : decode (.of [.amp]) text = ['&', 'a', 'm', 'p', ';', 'l', 't', ';', '<'] := by
    decide +kernel
  have hwhole : decode .none text = ['&', 'l', 't', ';', '<'] := by decide +kernel
  obtain ⟨hdecode, hagain, -⟩ := (partly_decoded (.of [.amp]) rfl).2 text htext
  rw [hleft] at hdecode hagain
  exact ⟨htext, rfl, hdecode.trans hwhole, hagain⟩

end Partial

end Recognition.Sgml

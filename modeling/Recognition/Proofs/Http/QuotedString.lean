import Mathlib.Data.List.DropRight
import Recognition.Http.Element
import Recognition.Proofs.Http.Written.Parameter

namespace Recognition.Http

open Window

/-- What may stand between quotes: items of three kinds. -/
inductive QuotedBody : List UInt8 → Prop
  | nil : QuotedBody []
  | escaped {b : UInt8} {bs : List UInt8} (hbs : QuotedBody bs) :
    QuotedBody (Byte.backslash :: b :: bs)
  | white {n : Option LineBreak} {blanks bs : List UInt8} (hne : blanks ≠ [])
    (hblanks : ∀ b ∈ blanks, isBlank b = true) (hbs : QuotedBody bs) :
    QuotedBody (n.elim [] LineBreak.bytes ++ (blanks ++ bs))
  | plain {b : UInt8} {bs : List UInt8} (hcontrol : isControl b = false) (hquote : b ≠ Byte.quote)
    (hbackslash : b ≠ Byte.backslash) (hbs : QuotedBody bs) : QuotedBody (b :: bs)

/-- Whether a backslash takes the byte after these: they end in an odd number of backslashes. -/
def EscapesNext (before : List UInt8) : Prop :=
  (before.rtakeWhile (· == Byte.backslash)).length % 2 = 1

instance (before : List UInt8) : Decidable (EscapesNext before) :=
  inferInstanceAs (Decidable (_ = 1))

def inQuotes (body : List UInt8) : List UInt8 := Byte.quote :: (body ++ [Byte.quote])

def QuotedString.around (pos : Nat) (body : List UInt8) : QuotedString :=
  ⟨.over pos (inQuotes body), .over (pos + 1) body⟩

/-- Whether a byte may stand between quotes after a backslash only. -/
def needsBackslash (b : UInt8) : Bool := b == Byte.quote || b == Byte.backslash || isControl b

def withBackslashes (bytes : List UInt8) : List UInt8 :=
  bytes.flatMap fun b => if needsBackslash b then [Byte.backslash, b] else [b]

def withoutBackslashes : List UInt8 → List UInt8
  | b :: c :: bs =>
    if b = Byte.backslash then c :: withoutBackslashes bs else b :: withoutBackslashes (c :: bs)
  | bs => bs

variable {bytes body rest : List UInt8} {n : Nat}

theorem Fold.exists_of_foldsAt (h : foldsAt bytes = true) :
    ∃ f : Fold, ∃ rest, bytes = f.bytes ++ rest := by
  cases bytes with
  | nil => cases h
  | cons b bs =>
    simp only [foldsAt, Bool.or_eq_true, Bool.and_eq_true, beq_iff_eq, Option.any_eq_true] at h
    rcases h with (hblank | ⟨rfl, c, hc, hblank⟩) | ⟨⟨rfl, hlf⟩, c, hc, hblank⟩
    · exact ⟨⟨none, b, hblank⟩, bs, rfl⟩
    · obtain ⟨bs, rfl⟩ := List.head?_eq_some_iff.1 hc
      exact ⟨⟨some .lf, c, hblank⟩, bs, rfl⟩
    · obtain ⟨bs, rfl⟩ := List.head?_eq_some_iff.1 hlf
      obtain ⟨bs, rfl⟩ := List.head?_eq_some_iff.1 hc
      exact ⟨⟨some .crlf, c, hblank⟩, bs, rfl⟩

namespace QuotedPiece

theorem exists_of_quotedCount? (hnul : 0 ∉ bytes) (h : quotedCount? bytes = some n) :
    (n = 0 ∧ ∃ rest, bytes = Byte.quote :: rest) ∨
      ∃ p : QuotedPiece, ∃ rest, bytes = p.bytes ++ rest := by
  cases bytes with
  | nil => cases h
  | cons b bs =>
    rw [quotedCount?_cons] at h
    split at h
    · rename_i hfolds
      obtain ⟨f, rest, hbytes⟩ := Fold.exists_of_foldsAt hfolds
      exact .inr ⟨.fold f, rest, hbytes⟩
    split at h
    · rename_i hquote
      exact .inl ⟨(Option.some.inj h).symm, bs, by rw [hquote]⟩
    split at h
    · rename_i hbackslash
      cases bs with
      | nil => cases h
      | cons c cs =>
        have hc : c ≠ 0 := fun hc => hnul (by simp [hc])
        exact .inr ⟨.escaped c hc, cs, by rw [hbackslash]; rfl⟩
    split at h
    · cases h
    · rename_i hquote hbackslash hcontrol
      exact .inr ⟨.plain b ⟨by simpa using hcontrol, hquote, hbackslash⟩, bs, rfl⟩

/-- Up to the closing quote, a quoted string is read piece by piece. -/
theorem quotedCount?_eq_some_iff (hnul : 0 ∉ bytes) : quotedCount? bytes = some n ↔
    ∃ ps rest, bytes = content ps ++ Byte.quote :: rest ∧ n = (content ps).length := by
  constructor
  · intro h
    induction hlength : bytes.length using Nat.strong_induction_on generalizing bytes n with
    | _ length ih =>
      rcases exists_of_quotedCount? hnul h with ⟨rfl, rest, rfl⟩ | ⟨p, later, rfl⟩
      · exact ⟨[], rest, rfl, rfl⟩
      · rw [quotedCount?_bytes] at h
        obtain ⟨m, hm, rfl⟩ := Option.map_eq_some_iff.1 h
        have hshorter : later.length < length := by
          have hpiece : 0 < p.bytes.length := by
            cases p with
            | plain => exact Nat.one_pos
            | escaped => exact Nat.two_pos
            | fold f => simp [QuotedPiece.bytes, Fold.bytes]
          rw [← hlength, List.length_append]
          omega
        obtain ⟨ps, rest, rfl, rfl⟩ :=
          ih _ hshorter (fun h0 => hnul (List.mem_append_right _ h0)) hm rfl
        exact ⟨p :: ps, rest, by simp [content], by simp [content]⟩
  · rintro ⟨ps, rest, rfl, rfl⟩
    exact quotedCount?_content ps rest

end QuotedPiece

namespace QuotedBody

theorem of_pieces (ps : List QuotedPiece) : QuotedBody (QuotedPiece.content ps) := by
  induction ps with
  | nil => exact .nil
  | cons p ps ih =>
    rw [QuotedPiece.content, List.flatMap_cons, ← QuotedPiece.content]
    cases p with
    | plain b h => exact .plain h.1 h.2.1 h.2.2 ih
    | escaped b h => exact .escaped ih
    | fold f =>
      rw [QuotedPiece.bytes, Fold.bytes, List.append_assoc]
      exact .white (List.cons_ne_nil _ _) (List.forall_mem_singleton.2 f.isBlank_blank) ih

theorem exists_folds {blanks : List UInt8} (h : ∀ b ∈ blanks, isBlank b = true) :
    ∃ fs, blanks = Fold.all fs := by
  induction blanks with
  | nil => exact ⟨[], rfl⟩
  | cons b bs ih =>
    rw [List.forall_mem_cons] at h
    obtain ⟨fs, rfl⟩ := ih h.2
    exact ⟨⟨none, b, h.1⟩ :: fs, rfl⟩

theorem exists_pieces (h : QuotedBody body) (hnul : 0 ∉ body) :
    ∃ ps, body = QuotedPiece.content ps := by
  induction h with
  | nil => exact ⟨[], rfl⟩
  | @escaped b bs hbs ih =>
    simp only [List.mem_cons, not_or] at hnul
    obtain ⟨ps, rfl⟩ := ih hnul.2.2
    exact ⟨.escaped b (Ne.symm hnul.2.1) :: ps, rfl⟩
  | @white n blanks bs hne hblanks hbs ih =>
    simp only [List.mem_append, not_or] at hnul
    obtain ⟨ps, rfl⟩ := ih hnul.2.2
    obtain ⟨b, later, rfl⟩ := List.exists_cons_of_ne_nil hne
    rw [List.forall_mem_cons] at hblanks
    obtain ⟨fs, rfl⟩ := exists_folds hblanks.2
    refine ⟨.fold ⟨n, b, hblanks.1⟩ :: (fs.map .fold ++ ps), ?_⟩
    have hblanks : Fold.all fs = (fs.map QuotedPiece.fold).flatMap QuotedPiece.bytes := by
      rw [List.flatMap_map]
      rfl
    simp [QuotedPiece.content, QuotedPiece.bytes, Fold.bytes, hblanks]
  | @plain b bs hcontrol hquote hbackslash hbs ih =>
    obtain ⟨ps, rfl⟩ := ih fun h => hnul (List.mem_cons_of_mem b h)
    exact ⟨.plain b ⟨hcontrol, hquote, hbackslash⟩ :: ps, rfl⟩

end QuotedBody

section Closing

variable {before lead xs : List UInt8} {b : UInt8}

theorem escapesNext_concat_of_ne (hb : b ≠ Byte.backslash) : ¬ EscapesNext (before ++ [b]) := by
  rw [EscapesNext, List.rtakeWhile_concat_neg _ _ b (by simpa using hb)]
  decide

theorem escapesNext_concat_backslash :
    EscapesNext (before ++ [Byte.backslash]) ↔ ¬ EscapesNext before := by
  rw [EscapesNext, EscapesNext, List.rtakeWhile_concat_pos _ _ _ (by simp), List.length_append,
    List.length_singleton]
  omega

/-- No quote closes within the body, and the one after it does. -/
structure ClosesAfter (lead body : List UInt8) : Prop where
  closed : ¬ EscapesNext (lead ++ body)
  first : ∀ before after, body = before ++ Byte.quote :: after → EscapesNext (lead ++ before)

namespace ClosesAfter

theorem nil (hlead : ¬ EscapesNext lead) : ClosesAfter lead [] where
  closed := by rwa [List.append_nil]
  first before after h := by simp at h

theorem append (hxs : Byte.quote ∉ xs) (h : ClosesAfter (lead ++ xs) body) :
    ClosesAfter lead (xs ++ body) where
  closed := by
    rw [← List.append_assoc]
    exact h.closed
  first before after hsplit := by
    rcases List.append_eq_append_iff.1 hsplit with ⟨ys, rfl, hbody⟩ | ⟨ys, rfl, hbody⟩
    · rw [← List.append_assoc]
      exact h.first ys after hbody
    · cases ys with
      | nil => simpa using h.first [] after (by simpa using hbody.symm)
      | cons c cs =>
        obtain rfl := (List.cons.inj hbody).1
        simp at hxs

theorem escaped (hlead : ¬ EscapesNext lead)
    (h : ClosesAfter (lead ++ [Byte.backslash, b]) body) :
    ClosesAfter lead (Byte.backslash :: b :: body) where
  closed := by simpa using h.closed
  first before after hsplit := by
    match before with
    | [] => simp [Byte.backslash, Byte.quote] at hsplit
    | [c] =>
      obtain rfl := (List.cons.inj hsplit).1
      exact escapesNext_concat_backslash.2 hlead
    | c :: d :: before =>
      simp only [List.cons_append, List.cons.injEq] at hsplit
      obtain ⟨rfl, rfl, hbody⟩ := hsplit
      simpa using h.first before after hbody

end ClosesAfter

theorem not_escapesNext_pair (hlead : ¬ EscapesNext lead) :
    ¬ EscapesNext (lead ++ [Byte.backslash, b]) := by
  rw [show lead ++ [Byte.backslash, b] = lead ++ [Byte.backslash] ++ [b] by simp]
  by_cases hb : b = Byte.backslash
  · rw [hb, escapesNext_concat_backslash, escapesNext_concat_backslash]
    exact fun h => h hlead
  · exact escapesNext_concat_of_ne hb

theorem QuotedBody.closesAfter (h : QuotedBody body) (hlead : ¬ EscapesNext lead) :
    ClosesAfter lead body := by
  induction h generalizing lead with
  | nil => exact .nil hlead
  | escaped hbs ih => exact .escaped hlead (ih (not_escapesNext_pair hlead))
  | @white n blanks bs hne hblanks hbs ih =>
    rw [← List.append_assoc]
    refine .append (fun h => ?_) (ih ?_)
    · have hspace : isSpace Byte.quote = true := by
        rcases List.mem_append.1 h with h | h
        · cases n with
          | none => cases h
          | some n => exact n.isSpace_of_mem h
        · exact isSpace_of_isBlank (hblanks _ h)
      cases hspace
    · obtain ⟨later, b, rfl⟩ := (List.eq_nil_or_concat' blanks).resolve_left hne
      have hb : b ≠ Byte.backslash := by
        rintro rfl
        exact absurd (hblanks Byte.backslash (by simp)) (by decide)
      rw [← List.append_assoc, ← List.append_assoc]
      exact escapesNext_concat_of_ne hb
  | @plain b bs hcontrol hquote hbackslash hbs ih =>
    have hxs : Byte.quote ∉ [b] := by simpa using hquote.symm
    exact .append hxs (ih (escapesNext_concat_of_ne hbackslash))

end Closing

section Backslashes

theorem QuotedBody.withBackslashes (bytes : List UInt8) : QuotedBody (withBackslashes bytes) := by
  induction bytes with
  | nil => exact .nil
  | cons b bs ih =>
    rw [Http.withBackslashes, List.flatMap_cons, ← Http.withBackslashes]
    split
    · exact .escaped ih
    · rename_i hneeds
      simp only [needsBackslash, Bool.or_eq_true, beq_iff_eq, not_or, Bool.not_eq_true] at hneeds
      exact .plain hneeds.2 hneeds.1.1 hneeds.1.2 ih

theorem nul_notMem_withBackslashes (h : 0 ∉ bytes) : 0 ∉ withBackslashes bytes := by
  rw [withBackslashes, List.mem_flatMap]
  rintro ⟨b, hb, hnul⟩
  have hne : b ≠ 0 := fun h0 => h (h0 ▸ hb)
  split at hnul <;> simp [Byte.backslash, hne.symm] at hnul

theorem withoutBackslashes_cons {b : UInt8} (hb : b ≠ Byte.backslash) (bs : List UInt8) :
    withoutBackslashes (b :: bs) = b :: withoutBackslashes bs := by
  cases bs with
  | nil => rfl
  | cons c cs => rw [withoutBackslashes, if_neg hb]

theorem withoutBackslashes_withBackslashes (bytes : List UInt8) :
    withoutBackslashes (withBackslashes bytes) = bytes := by
  induction bytes with
  | nil => rfl
  | cons b bs ih =>
    rw [withBackslashes, List.flatMap_cons, ← withBackslashes]
    split
    · rw [List.cons_append, List.cons_append, List.nil_append, withoutBackslashes, if_pos rfl, ih]
    · rename_i hneeds
      have hb : b ≠ Byte.backslash := by
        rintro rfl
        exact hneeds rfl
      rw [List.singleton_append, withoutBackslashes_cons hb, ih]

end Backslashes

/-- A quoted string is read exactly where one comes first. -/
theorem quotedString_read_iff (hnul : 0 ∉ bytes) {pos : Nat} {s : QuotedString} :
    (quotedString.read ⟨pos, bytes⟩).map Prod.fst = some s ↔
      ∃ body rest, bytes = inQuotes body ++ rest ∧ QuotedBody body ∧ s = .around pos body := by
  have hreads : ∀ ps rest, quotedString.read ⟨pos, inQuotes (QuotedPiece.content ps) ++ rest⟩ =
      some (.around pos (QuotedPiece.content ps),
        ⟨pos + (inQuotes (QuotedPiece.content ps)).length, rest⟩) :=
    fun ps rest => ValueForm.reads_quoted ps pos rest trivial
  constructor
  · intro h
    obtain ⟨⟨s', v⟩, hread, rfl⟩ := Option.map_eq_some_iff.1 h
    have hopened := hread
    simp only [quotedString, Option.bind_eq_bind, Option.bind_eq_some_iff] at hopened
    obtain ⟨u, hu, n, hn, -⟩ := hopened
    obtain ⟨hhead, rfl⟩ := eat?_eq_some.1 hu
    obtain ⟨bs, rfl⟩ := List.head?_eq_some_iff.1 hhead
    rw [drop_cons] at hn
    obtain ⟨ps, rest, rfl, -⟩ :=
      (QuotedPiece.quotedCount?_eq_some_iff fun h0 => hnul (List.mem_cons_of_mem _ h0)).1 hn
    have hbytes : Byte.quote :: (QuotedPiece.content ps ++ Byte.quote :: rest) =
        inQuotes (QuotedPiece.content ps) ++ rest := by
      simp [inQuotes]
    rw [hbytes, hreads ps rest] at hread
    exact ⟨_, rest, hbytes, .of_pieces ps, (Prod.mk.inj (Option.some.inj hread)).1.symm⟩
  · rintro ⟨body, rest, rfl, hbody, rfl⟩
    obtain ⟨ps, rfl⟩ := hbody.exists_pieces fun h0 => hnul (by simp [inQuotes, h0])
    rw [hreads ps rest, Option.map_some]

theorem Window.nul_notMem_bytesOf (text : List UInt8) (start : Nat) (stop : Option Nat) :
    0 ∉ bytesOf text start stop := by
  intro h
  have hrest : (Window.of text start stop).rest = bytesOf text start stop :=
    congrArg Window.rest (of_eq text start stop)
  rw [← hrest] at h
  simpa using List.mem_takeWhile_imp h

/-- A quoted string is read if and only if the text goes on with one, up to its bound or a NUL; it
is all of that one. The quote that closes it is the first that no backslash takes. Any bytes but NUL
are read back from between quotes if each quote, backslash and control has a backslash before it. -/
theorem quotedString_grammar (text : List UInt8) (start : Nat) (stop : Option Nat) :
    (∀ s, Element.quotedString.parse text start stop = some s ↔
      ∃ body rest, bytesOf text start stop = inQuotes body ++ rest ∧ QuotedBody body ∧
        s = .around start body) ∧
    (∀ body, QuotedBody body → ¬ EscapesNext body ∧
      ∀ before after, body = before ++ Byte.quote :: after → EscapesNext before) ∧
    ∀ bytes, 0 ∉ bytes →
      Element.quotedString.parse (inQuotes (withBackslashes bytes)) 0 none =
        some (.around 0 (withBackslashes bytes)) ∧
      withoutBackslashes (withBackslashes bytes) = bytes := by
  have hparse : ∀ text start stop s, Element.quotedString.parse text start stop = some s ↔
      ∃ body rest, bytesOf text start stop = inQuotes body ++ rest ∧ QuotedBody body ∧
        s = .around start body := by
    intro text start stop s
    rw [Element.parse, of_eq]
    exact quotedString_read_iff (nul_notMem_bytesOf text start stop)
  refine ⟨hparse text start stop, fun body hbody => ?_, fun bytes hnul => ⟨?_, ?_⟩⟩
  · have hcloses : ClosesAfter [] body := hbody.closesAfter (by decide)
    exact ⟨hcloses.closed, hcloses.first⟩
  · have htext : 0 ∉ inQuotes (withBackslashes bytes) := by
      simp [inQuotes, nul_notMem_withBackslashes hnul, Byte.quote]
    rw [hparse, bytesOf_of_notMem htext]
    exact ⟨_, [], (List.append_nil _).symm, .withBackslashes bytes, rfl⟩
  · exact withoutBackslashes_withBackslashes bytes

/-- Backslashes before a quote, and one before a line break with a blank after it. -/
theorem quotedString_grammar_of_escapes :
    ∃ body, body = [0x61, 0x5C, 0x5C, 0x5C, 0x22, 0x5C, 0x0D, 0x0A, 0x20] ∧ QuotedBody body ∧
      Element.quotedString.parse (inQuotes body ++ [0x7A, 0x22]) 0 none =
        some ⟨⟨0, 11⟩, ⟨1, 10⟩⟩ ∧
      EscapesNext [0x61, 0x5C, 0x5C, 0x5C] ∧ ¬ EscapesNext body ∧
      0 ∉ [0x22, 0x5C, 0x0A, 0x20] ∧
      Element.quotedString.parse (inQuotes (withBackslashes [0x22, 0x5C, 0x0A, 0x20])) 0 none =
        some ⟨⟨0, 9⟩, ⟨1, 8⟩⟩ := by
  have hwhite : QuotedBody [0x0A, 0x20] :=
    .white (n := some .lf) (List.cons_ne_nil 0x20 []) (List.forall_mem_singleton.2 rfl) .nil
  have hbody : QuotedBody [0x61, 0x5C, 0x5C, 0x5C, 0x22, 0x5C, 0x0D, 0x0A, 0x20] :=
    .plain rfl (by decide) (by decide) (.escaped (.escaped (.escaped hwhite)))
  obtain ⟨hparse, hcloses, hquoted⟩ := quotedString_grammar
    (inQuotes [0x61, 0x5C, 0x5C, 0x5C, 0x22, 0x5C, 0x0D, 0x0A, 0x20] ++ [0x7A, 0x22]) 0 none
  have hbytes : bytesOf
      (inQuotes [0x61, 0x5C, 0x5C, 0x5C, 0x22, 0x5C, 0x0D, 0x0A, 0x20] ++ [0x7A, 0x22]) 0 none =
        inQuotes [0x61, 0x5C, 0x5C, 0x5C, 0x22, 0x5C, 0x0D, 0x0A, 0x20] ++ [0x7A, 0x22] := by
    decide
  obtain ⟨hclosed, hfirst⟩ := hcloses _ hbody
  refine ⟨_, rfl, hbody, (hparse _).2 ⟨_, _, hbytes, hbody, rfl⟩, hfirst _ _ rfl, hclosed,
    by decide, ?_⟩
  exact (hquoted [0x22, 0x5C, 0x0A, 0x20] (by decide)).1

end Recognition.Http

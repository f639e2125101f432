import Recognition.Proofs.Http.LineScan
import Recognition.Proofs.Http.Written.Window

namespace Recognition.Http

open Window

/-- Linear white space at its smallest: a blank, perhaps with a line break before it. -/
structure Fold where
  lineBreak : Option LineBreak
  blank : UInt8
  isBlank_blank : isBlank blank = true

structure TokenForm where
  bytes : List UInt8
  ne_nil : bytes ≠ []
  token_bytes : ∀ b ∈ bytes, isTokenByte b = true

/-- What may stand between quotes. A backslash goes with the byte after it. -/
inductive QuotedPiece where
  | plain (b : UInt8) (h : isControl b = false ∧ b ≠ Byte.quote ∧ b ≠ Byte.backslash)
  | escaped (b : UInt8) (h : b ≠ 0)
  | fold (f : Fold)

inductive ValueForm where
  | quoted (pieces : List QuotedPiece)
  | token (t : TokenForm)

/-- A name and a value with `=` between them, and white space around that. -/
structure ParameterForm where
  name : TokenForm
  before : List Fold
  after : List Fold
  value : ValueForm

variable {rest : List UInt8}

theorem isSpace_of_isBlank {b : UInt8} (h : isBlank b = true) : isSpace b = true := by
  simp [isSpace, h]

theorem isTokenByte_of_isSpace {b : UInt8} (h : isSpace b = true) : isTokenByte b = false := by
  simp [isTokenByte, h]

theorem foldsAt_of_stops (h : Stops isSpace rest) : foldsAt rest = false := by
  cases rest with
  | nil => rfl
  | cons b bs =>
    have hb : isBlank b = false ∧ b ≠ Byte.lf ∧ b ≠ Byte.cr := by
      simpa [isSpace, and_assoc] using Stops.cons_iff.1 h
    simp [foldsAt, hb]

namespace Fold

def bytes (f : Fold) : List UInt8 := f.lineBreak.elim [] LineBreak.bytes ++ [f.blank]

def all (fs : List Fold) : List UInt8 := fs.flatMap bytes

theorem foldsAt_drop (f : Fold) (rest : List UInt8) :
    ∀ i < f.bytes.length, foldsAt ((f.bytes ++ rest).drop i) = true := by
  have hblank : foldsAt (f.blank :: rest) = true := by simp [foldsAt, f.isBlank_blank]
  have hlf : foldsAt (Byte.lf :: f.blank :: rest) = true := by simp [foldsAt, f.isBlank_blank]
  have hcr : foldsAt (Byte.cr :: Byte.lf :: f.blank :: rest) = true := by
    simp [foldsAt, f.isBlank_blank]
  rw [bytes]
  -- The blank makes every byte of the line break before it white space too.
  rcases f.lineBreak with _ | _ | _
  · rintro (_ | i) hi
    · exact hblank
    · simp at hi
  · rintro (_ | _ | i) hi
    · exact hlf
    · exact hblank
    · exact absurd hi (Nat.not_lt.2 (Nat.le_add_left 2 i))
  · rintro (_ | _ | _ | i) hi
    · exact hcr
    · exact hlf
    · exact hblank
    · exact absurd hi (Nat.not_lt.2 (Nat.le_add_left 3 i))

theorem isSpace_of_mem (f : Fold) : ∀ b ∈ f.bytes, isSpace b = true := by
  intro b hb
  rw [bytes, List.mem_append, List.mem_singleton] at hb
  rcases hb with hb | rfl
  · cases hbreak : f.lineBreak with
    | none => simp [hbreak] at hb
    | some n => exact LineBreak.isSpace_of_mem (n := n) (by simpa [hbreak] using hb)
  · exact isSpace_of_isBlank f.isBlank_blank

theorem isSpace_of_mem_all (fs : List Fold) : ∀ b ∈ all fs, isSpace b = true := by
  intro b hb
  obtain ⟨f, -, hb⟩ := List.mem_flatMap.1 hb
  exact f.isSpace_of_mem b hb

theorem foldCount_all (fs : List Fold) (hrest : Stops isSpace rest) :
    foldCount (all fs ++ rest) = (all fs).length := by
  induction fs with
  | nil =>
    cases rest with
    | nil => rfl
    | cons b bs => simp [all, foldCount, foldsAt_of_stops hrest]
  | cons f fs ih =>
    rw [all, List.flatMap_cons, List.append_assoc, foldCount_of_foldsAt (f.foldsAt_drop _),
      List.drop_left, ← all, ih, List.length_append]

theorem skipFolds_all (fs : List Fold) (hrest : Stops isSpace rest) (pos : Nat) :
    (⟨pos, all fs ++ rest⟩ : Window).skipFolds = ⟨pos + (all fs).length, rest⟩ := by
  rw [skipFolds, foldCount_all fs hrest, drop_append]

theorem nul_notMem (fs : List Fold) : 0 ∉ all fs := fun h =>
  absurd (isSpace_of_mem_all fs 0 h) (by decide)

theorem stops_token (fs : List Fold) (hrest : Stops isTokenByte rest) :
    Stops isTokenByte (all fs ++ rest) := by
  cases hfs : all fs with
  | nil => exact hrest
  | cons b bs =>
    exact Stops.cons_iff.2 (isTokenByte_of_isSpace (isSpace_of_mem_all fs b (by simp [hfs])))

end Fold

/-- What stands after a byte is read with any linear white space around the byte. -/
theorem Reader.Reads.afterFolded {α : Type} {r : Reader α} {follows : List UInt8 → Prop}
    {bytes : List UInt8} {place : Nat → α} {b : UInt8} (before after : List Fold)
    (hreads : r.Reads follows bytes place) (hb : isSpace b = false)
    (hbytes : ∀ rest, Stops isSpace (bytes ++ rest)) :
    (r.afterFolded b).Reads follows (Fold.all before ++ b :: (Fold.all after ++ bytes))
      (fun pos => place (pos + (Fold.all before).length + 1 + (Fold.all after).length)) := by
  intro pos rest hrest
  have hsum : pos + (Fold.all before).length + 1 + (Fold.all after).length + bytes.length =
      pos + (Fold.all before ++ b :: (Fold.all after ++ bytes)).length := by
    simp only [List.length_append, List.length_cons]
    omega
  rw [List.append_assoc, List.cons_append, List.append_assoc]
  simp only [Reader.afterFolded, Fold.skipFolds_all before (Stops.cons_iff.2 hb), eat?_cons,
    Option.bind_some, Fold.skipFolds_all after (hbytes rest), hreads _ rest hrest, hsum]

namespace TokenForm

theorem reads (t : TokenForm) : Http.token.Reads (Stops isTokenByte) t.bytes (.over · t.bytes) :=
  fun _ _ => run?_append t.ne_nil t.token_bytes

theorem nul_notMem (t : TokenForm) : 0 ∉ t.bytes := fun h =>
  absurd (t.token_bytes 0 h) (by decide)

theorem stops (t : TokenForm) {p : UInt8 → Bool} (hp : ∀ b, isTokenByte b = true → p b = false)
    (rest : List UInt8) : Stops p (t.bytes ++ rest) :=
  .append t.ne_nil fun b hb => hp b (t.token_bytes b (List.mem_of_mem_head? hb))

theorem stops_isSpace (t : TokenForm) (rest : List UInt8) : Stops isSpace (t.bytes ++ rest) := by
  refine t.stops (fun b hb => ?_) rest
  simp only [isTokenByte, Bool.and_eq_true, Bool.not_eq_true'] at hb
  exact hb.2

end TokenForm

namespace QuotedPiece

def bytes : QuotedPiece → List UInt8
  | plain b _ => [b]
  | escaped b _ => [Byte.backslash, b]
  | fold f => f.bytes

def content (ps : List QuotedPiece) : List UInt8 := ps.flatMap bytes

theorem quotedCount?_bytes (p : QuotedPiece) (rest : List UInt8) :
    quotedCount? (p.bytes ++ rest) = (quotedCount? rest).map (p.bytes.length + ·) := by
  cases p with
  | plain b h =>
    have hcount : quotedCount? (b :: rest) = (quotedCount? rest).map (· + 1) := by
      rw [quotedCount?_cons]
      simp [h]
    simp only [bytes, List.singleton_append, hcount, List.length_singleton, Nat.add_comm 1]
  | escaped b h =>
    have hfold : foldsAt (Byte.backslash :: b :: rest) = false := rfl
    have hcount : quotedCount? (Byte.backslash :: b :: rest) = (quotedCount? rest).map (· + 2) := by
      rw [quotedCount?_cons, hfold]
      rfl
    simp only [bytes, List.cons_append, List.nil_append, hcount, List.length_cons, List.length_nil,
      Nat.add_comm 2]
  | fold f => rw [bytes, quotedCount?_of_foldsAt (f.foldsAt_drop rest), List.drop_left]

theorem quotedCount?_content (ps : List QuotedPiece) (rest : List UInt8) :
    quotedCount? (content ps ++ Byte.quote :: rest) = some (content ps).length := by
  induction ps with
  | nil => exact (quotedCount?_cons Byte.quote rest).trans rfl
  | cons p ps ih =>
    rw [content, List.flatMap_cons, List.append_assoc, quotedCount?_bytes, ← content, ih,
      Option.map_some, List.length_append]

theorem nul_notMem (p : QuotedPiece) : 0 ∉ p.bytes := by
  cases p with
  | plain b h =>
    rw [bytes, List.mem_singleton]
    rintro rfl
    exact absurd h.1 (by decide)
  | escaped b h => simp [bytes, h.symm, Byte.backslash]
  | fold f => exact fun hnul => absurd (f.isSpace_of_mem 0 hnul) (by decide)

theorem nul_notMem_content (ps : List QuotedPiece) : 0 ∉ content ps := by
  rw [content, List.mem_flatMap]
  rintro ⟨p, -, hp⟩
  exact p.nul_notMem hp

end QuotedPiece

namespace ValueForm

def bytes : ValueForm → List UInt8
  | quoted ps => Byte.quote :: (QuotedPiece.content ps ++ [Byte.quote])
  | token t => t.bytes

def value (pos : Nat) : ValueForm → Value
  | quoted ps => .quoted ⟨.over pos (quoted ps).bytes, .over (pos + 1) (QuotedPiece.content ps)⟩
  | token t => .token (.over pos t.bytes)

theorem span_value (v : ValueForm) (pos : Nat) : (v.value pos).span = .over pos v.bytes := by
  cases v <;> rfl

theorem reads_quoted (ps : List QuotedPiece) :
    quotedString.Reads (fun _ => True) (quoted ps).bytes
      (fun pos => ⟨.over pos (quoted ps).bytes, .over (pos + 1) (QuotedPiece.content ps)⟩) := by
  intro pos rest _
  have hsum : pos + 1 + (QuotedPiece.content ps).length + 1 = pos + (quoted ps).bytes.length := by
    simp only [bytes, List.length_cons, List.length_append, List.length_nil]
    omega
  simp only [quotedString, bytes, List.cons_append, List.append_assoc, List.nil_append, eat?_cons,
    Option.bind_eq_bind, Option.bind_some, QuotedPiece.quotedCount?_content, drop_append, drop_cons,
    hsum]
  rfl

theorem reads (v : ValueForm) : Http.value.Reads (Stops isTokenByte) v.bytes v.value := by
  intro pos rest hrest
  cases v with
  | quoted ps =>
    rw [Http.value]
    simp only [reads_quoted ps pos rest trivial]
    rfl
  | token t =>
    -- No token begins with a quote, so none is taken for a quoted string.
    have hquote : (⟨pos, t.bytes ++ rest⟩ : Window).eat? Byte.quote = none := by
      refine eat?_of_stops (p := (· == Byte.quote)) rfl (t.stops (fun b hb => ?_) rest)
      rw [beq_eq_false_iff_ne]
      rintro rfl
      exact absurd hb (by decide)
    rw [Http.value]
    simp only [quotedString, hquote, bytes, t.reads pos rest hrest]
    rfl

theorem stops_isSpace (v : ValueForm) (rest : List UInt8) : Stops isSpace (v.bytes ++ rest) := by
  cases v with
  | quoted ps => exact Stops.cons_iff.2 (by decide)
  | token t => exact t.stops_isSpace rest

theorem nul_notMem (v : ValueForm) : 0 ∉ v.bytes := by
  cases v with
  | quoted ps => simp [bytes, QuotedPiece.nul_notMem_content, Byte.quote]
  | token t => exact t.nul_notMem

end ValueForm

namespace ParameterForm

def valueBytes (p : ParameterForm) : List UInt8 :=
  Fold.all p.before ++ Byte.equals :: (Fold.all p.after ++ p.value.bytes)

def bytes (p : ParameterForm) : List UInt8 := p.name.bytes ++ p.valueBytes

def valuePos (pos : Nat) (p : ParameterForm) : Nat :=
  pos + p.name.bytes.length + (Fold.all p.before).length + 1 + (Fold.all p.after).length

def param (pos : Nat) (p : ParameterForm) : Parameter :=
  ⟨.over pos p.bytes, .over pos p.name.bytes, p.value.value (p.valuePos pos)⟩

theorem reads (p : ParameterForm) : Http.parameter.Reads (Stops isTokenByte) p.bytes p.param := by
  intro pos rest hrest
  have hname : Stops isTokenByte (p.valueBytes ++ rest) := by
    rw [valueBytes, List.append_assoc]
    exact Fold.stops_token p.before (Stops.cons_iff.2 (by decide))
  have hvalue := p.value.reads.afterFolded p.before p.after
    (by decide : isSpace Byte.equals = false) p.value.stops_isSpace
    (pos + p.name.bytes.length) rest hrest
  have hend : pos + p.name.bytes.length + p.valueBytes.length = pos + p.bytes.length := by
    rw [bytes, List.length_append, Nat.add_assoc]
  rw [← valueBytes, hend] at hvalue
  have hbytes : p.bytes ++ rest = p.name.bytes ++ (p.valueBytes ++ rest) := List.append_assoc _ _ _
  simp only [Http.parameter, hbytes, p.name.reads pos _ hname, Option.bind_eq_bind,
    Option.bind_some, hvalue]
  rfl

theorem bytes_param {text : List UInt8} {pos : Nat} (p : ParameterForm)
    (h : StandsAt text pos p.bytes) :
    ((p.param pos).name.bytes text, (p.param pos).value.span.bytes text) =
      (p.name.bytes, p.value.bytes) := by
  obtain ⟨hname, hlater⟩ := StandsAt.append_iff.1 h
  have hvalue := (StandsAt.append_iff.1 (StandsAt.append_iff.1 hlater).2.tail).2
  rw [param, ValueForm.span_value]
  exact congrArg₂ Prod.mk hname.bytes_over hvalue.bytes_over

theorem nul_notMem (p : ParameterForm) : 0 ∉ p.bytes := by
  simp [bytes, valueBytes, p.name.nul_notMem, p.value.nul_notMem, Fold.nul_notMem, Byte.equals]

end ParameterForm

end Recognition.Http

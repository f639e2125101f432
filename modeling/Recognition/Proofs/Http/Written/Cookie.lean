import Recognition.Proofs.Http.ItemList
import Recognition.Proofs.Http.Written.Accepted

namespace Recognition.Http

open Window

/-- A quoted string, or a run of bytes that may be empty. -/
inductive CookieValueForm where
  | quoted (pieces : List QuotedPiece)
  | plain (bytes : List UInt8) (h : ∀ b ∈ bytes, isCookieByte b = true)

/-- An attribute of a cookie with the white space around it. -/
structure CookieParameterForm where
  lead : List Fold
  param : ParameterForm
  trail : List Fold

/-- A cookie with its attributes and the white space around it. The name does not begin like an
attribute. -/
structure CookieForm where
  lead : List Fold
  name : TokenForm
  name_ne_dollar : name.bytes.head? ≠ some Byte.dollar
  before : List Fold
  after : List Fold
  value : CookieValueForm
  trail : List Fold
  params : List CookieParameterForm

variable {pos : Nat} {rest : List UInt8}

def AtSemicolon (rest : List UInt8) : Prop := Stops (· != Byte.semicolon) rest

namespace AtSemicolon

theorem stops {p : UInt8 → Bool} (hp : p Byte.semicolon = false) (h : AtSemicolon rest) :
    Stops p rest := by
  refine Stops.mono h fun b hb => ?_
  simp only [bne_iff_ne]
  rintro rfl
  rw [hp] at hb
  cases hb

theorem delimited (h : AtSemicolon rest) : Delimited rest := by
  rw [Delimited, (h.stops (by decide)).dropWhile]
  exact h.stops (by decide)

theorem delimited_folds (fs : List Fold) (h : AtSemicolon rest) :
    Delimited (Fold.all fs ++ rest) :=
  h.delimited.append (Fold.isSpace_of_mem_all fs)

end AtSemicolon

namespace CookieValueForm

variable (v : CookieValueForm)

def bytes : CookieValueForm → List UInt8
  | quoted ps => (ValueForm.quoted ps).bytes
  | plain bs _ => bs

def content : CookieValueForm → List UInt8
  | quoted ps => QuotedPiece.content ps
  | plain bs _ => bs

def span (pos : Nat) : CookieValueForm → Span
  | quoted ps => .over (pos + 1) (QuotedPiece.content ps)
  | plain bs _ => .over pos bs

theorem readValue_eq (pos : Nat) (hrest : Delimited rest) :
    Cookie.readValue ⟨pos, v.bytes ++ rest⟩ = (v.span pos, ⟨pos + v.bytes.length, rest⟩) := by
  cases v with
  | quoted ps =>
    rw [Cookie.readValue]
    simp only [bytes, ValueForm.reads_quoted ps pos rest trivial]
    rfl
  | plain bs h =>
    have hquote : Stops (· == Byte.quote) (bs ++ rest) := by
      cases bs with
      | nil => exact hrest.stops (by decide)
      | cons b bs =>
        have hb := h b (by simp)
        rw [List.cons_append, Stops.cons_iff, beq_eq_false_iff_ne]
        rintro rfl
        exact absurd hb (by decide)
    have hnone : (⟨pos, bs ++ rest⟩ : Window).eat? Byte.quote = none :=
      eat?_of_stops (p := (· == Byte.quote)) rfl hquote
    have hrun : (⟨pos, bs ++ rest⟩ : Window).run isCookieByte =
        (.over pos bs, ⟨pos + bs.length, rest⟩) :=
      run_append h (hrest.stops (by decide))
    rw [Cookie.readValue]
    simp only [quotedString, bytes, hnone, hrun]
    rfl

theorem stops_isSpace (hne : v.bytes ≠ []) (rest : List UInt8) :
    Stops isSpace (v.bytes ++ rest) := by
  cases v with
  | quoted ps => exact Stops.cons_iff.2 (by decide)
  | plain bs h =>
    exact .append hne fun b hb =>
      isSpace_eq_false (p := isCookieByte) (by decide) (h b (List.mem_of_mem_head? hb))

/-- White space that is read before the value. Before an empty one this is all there is, even what
was meant to come after it. -/
def skipped (after trail : List Fold) : List Fold := if v.bytes = [] then after ++ trail else after

/-- White space that is left after the value. -/
def left (trail : List Fold) : List Fold := if v.bytes = [] then [] else trail

theorem length_skipped_add (after trail : List Fold) :
    (Fold.all (v.skipped after trail)).length + (Fold.all (v.left trail)).length =
      (Fold.all after).length + (Fold.all trail).length := by
  rw [skipped, left]
  split <;> simp [Fold.all]

theorem readValue_skipFolds (after trail : List Fold) (pos : Nat) (hrest : AtSemicolon rest) :
    Cookie.readValue
        (⟨pos, Fold.all after ++ (v.bytes ++ (Fold.all trail ++ rest))⟩ : Window).skipFolds =
      (v.span (pos + (Fold.all (v.skipped after trail)).length),
        ⟨pos + (Fold.all (v.skipped after trail)).length + v.bytes.length,
          Fold.all (v.left trail) ++ rest⟩) := by
  by_cases hv : v.bytes = []
  · have hbytes : Fold.all after ++ (v.bytes ++ (Fold.all trail ++ rest)) =
        Fold.all (v.skipped after trail) ++ (v.bytes ++ rest) := by
      simp [hv, skipped, Fold.all]
    have hspace : Stops isSpace (v.bytes ++ rest) := by
      rw [hv]
      exact hrest.stops (by decide)
    rw [hbytes, Fold.skipFolds_all _ hspace, v.readValue_eq _ hrest.delimited, left, if_pos hv]
    rfl
  · rw [skipped, left, if_neg hv, if_neg hv, Fold.skipFolds_all after (v.stops_isSpace hv _),
      v.readValue_eq _ (hrest.delimited_folds trail)]

theorem bytes_span {text : List UInt8} (h : StandsAt text pos v.bytes) :
    (v.span pos).bytes text = v.content := by
  cases v with
  | quoted ps => exact (StandsAt.append_iff.1 h.tail).1.bytes_over
  | plain bs _ => exact h.bytes_over

theorem nul_notMem : 0 ∉ v.bytes := by
  cases v with
  | quoted ps => exact (ValueForm.quoted ps).nul_notMem
  | plain bs h => exact fun h0 => absurd (h 0 h0) (by decide)

end CookieValueForm

def ParameterForm.attribute (pos : Nat) (p : ParameterForm) : CookieParameter :=
  ⟨.over pos (Byte.dollar :: p.bytes), (p.param (pos + 1)).name, (p.param (pos + 1)).value⟩

theorem ParameterForm.reads_attribute (p : ParameterForm) :
    cookieParameter.Reads (Stops isTokenByte) (Byte.dollar :: p.bytes) p.attribute := by
  intro pos rest hrest
  simp only [cookieParameter, p.reads.after Byte.dollar pos rest hrest]
  rfl

namespace CookieParameterForm

def bytes (p : CookieParameterForm) : List UInt8 :=
  Fold.all p.lead ++ (Byte.dollar :: p.param.bytes ++ Fold.all p.trail)

def place (pos : Nat) (p : CookieParameterForm) : CookieParameter :=
  p.param.attribute (pos + (Fold.all p.lead).length)

def all (ps : List CookieParameterForm) : List UInt8 := ps.flatMap (Byte.semicolon :: bytes ·)

def found (pos : Nat) (ps : List CookieParameterForm) : List CookieParameter :=
  inTurn (Byte.semicolon :: bytes ·) (fun pos p => p.place (pos + 1)) pos ps

/-- Where the last attribute ends, or else what comes before all of them. -/
def stopAfter (stop : Nat) (ps : List CookieParameter) : Nat := ps.getLast?.elim stop (·.span.stop)

/-- The white space after the last attribute, or else what comes before all of them. -/
def trailAfter (gap : List Fold) (ps : List CookieParameterForm) : List Fold :=
  ps.getLast?.elim gap (·.trail)

theorem found_cons (pos : Nat) (p : CookieParameterForm) (ps : List CookieParameterForm) :
    found pos (p :: ps) =
      p.place (pos + 1) :: found (pos + (Byte.semicolon :: p.bytes).length) ps :=
  rfl

theorem stopAfter_cons (stop : Nat) (p : CookieParameter) (ps : List CookieParameter) :
    stopAfter stop (p :: ps) = stopAfter p.span.stop ps := by
  rw [stopAfter, stopAfter, List.getLast?_cons]
  cases ps.getLast? <;> rfl

theorem trailAfter_cons (gap : List Fold) (p : CookieParameterForm)
    (ps : List CookieParameterForm) : trailAfter gap (p :: ps) = trailAfter p.trail ps := by
  rw [trailAfter, trailAfter, List.getLast?_cons]
  cases ps.getLast? <;> rfl

theorem parameters_all (ps : List CookieParameterForm) (gap : List Fold) (pos : Nat)
    (hrest : AtSemicolon rest)
    (hnone : ∀ fs pos, (cookieParameter.afterFolded Byte.semicolon).read
      ⟨pos, Fold.all fs ++ rest⟩ = none) :
    parameters cookieParameter ⟨pos, Fold.all gap ++ (all ps ++ rest)⟩ =
      (found (pos + (Fold.all gap).length) ps,
        ⟨stopAfter pos (found (pos + (Fold.all gap).length) ps),
          Fold.all (trailAfter gap ps) ++ rest⟩) := by
  -- The white space changes from step to step: it is what comes after the attribute before.
  induction ps generalizing gap pos with
  | nil => exact Reader.many_of_none (hnone gap pos)
  | cons p ps ih =>
    have hbytes : Fold.all gap ++ (all (p :: ps) ++ rest) =
        (Fold.all gap ++ Byte.semicolon :: (Fold.all p.lead ++ Byte.dollar :: p.param.bytes)) ++
          (Fold.all p.trail ++ (all ps ++ rest)) := by
      simp [all, bytes]
    have hstop : pos + (Fold.all gap ++ Byte.semicolon ::
        (Fold.all p.lead ++ Byte.dollar :: p.param.bytes)).length =
          (p.place (pos + (Fold.all gap).length + 1)).span.stop := by
      simp only [place, ParameterForm.attribute, Span.over, List.length_append, List.length_cons]
      omega
    have htail : AtSemicolon (all ps ++ rest) := Stops.flatMap (by decide) ps hrest
    have hread : (cookieParameter.afterFolded Byte.semicolon).read
        ⟨pos, Fold.all gap ++ (all (p :: ps) ++ rest)⟩ =
          some (p.place (pos + (Fold.all gap).length + 1),
            ⟨(p.place (pos + (Fold.all gap).length + 1)).span.stop,
              Fold.all p.trail ++ (all ps ++ rest)⟩) := by
      rw [hbytes, ← hstop]
      exact p.param.reads_attribute.afterFolded gap p.lead
        (by decide : isSpace Byte.semicolon = false) (fun _ => Stops.cons_iff.2 (by decide)) pos _
        ((htail.delimited_folds p.trail).stops (by decide))
    have hnext : pos + (Fold.all gap).length + (Byte.semicolon :: p.bytes).length =
        (p.place (pos + (Fold.all gap).length + 1)).span.stop + (Fold.all p.trail).length := by
      simp only [← hstop, bytes, List.length_append, List.length_cons]
      omega
    rw [parameters, Reader.many_of_some hread, ← parameters, ih, found_cons, hnext, stopAfter_cons,
      trailAfter_cons]

theorem nul_notMem_all (ps : List CookieParameterForm) : 0 ∉ all ps := by
  rw [all, List.mem_flatMap]
  rintro ⟨p, -, hp⟩
  simp [bytes, Fold.nul_notMem, p.param.nul_notMem, Byte.semicolon, Byte.dollar] at hp

end CookieParameterForm

namespace CookieForm

variable (c : CookieForm)

def pairBytes : List UInt8 :=
  c.name.bytes ++ (Fold.all c.before ++ Byte.equals ::
    (Fold.all c.after ++ (c.value.bytes ++ Fold.all c.trail)))

def bytes : List UInt8 := Fold.all c.lead ++ (c.pairBytes ++ CookieParameterForm.all c.params)

def namePos (pos : Nat) : Nat := pos + (Fold.all c.lead).length

def valuePos (pos : Nat) : Nat :=
  c.namePos pos + c.name.bytes.length + (Fold.all c.before).length + 1 +
    (Fold.all (c.value.skipped c.after c.trail)).length

def placeParams (pos : Nat) : List CookieParameter :=
  CookieParameterForm.found (c.namePos pos + c.pairBytes.length) c.params

/-- The cookie of a form that begins at `pos`. It ends with its last attribute, or else with its
value. -/
def place (pos : Nat) (c : CookieForm) : Cookie where
  span := ⟨c.namePos pos,
    CookieParameterForm.stopAfter (c.valuePos pos + c.value.bytes.length) (c.placeParams pos)⟩
  name := .over (c.namePos pos) c.name.bytes
  value := c.value.span (c.valuePos pos)
  params := c.placeParams pos

def later (cs : List CookieForm) : List UInt8 := cs.flatMap (Byte.semicolon :: bytes ·)

theorem atSemicolon_later (cs : List CookieForm) : AtSemicolon (later cs) := by
  have hlater : AtSemicolon (later cs ++ []) := (Stops.nil _).flatMap (by decide) cs
  rwa [List.append_nil] at hlater

theorem read_later (cs : List CookieForm) (gap : List Fold) (pos : Nat) :
    (cookieParameter.afterFolded Byte.semicolon).read ⟨pos, Fold.all gap ++ later cs⟩ = none := by
  have hskip := Fold.skipFolds_all gap ((atSemicolon_later cs).stops (by decide)) pos
  simp only [Reader.afterFolded, hskip]
  cases cs with
  | nil => rfl
  | cons c cs =>
    have hbytes : later (c :: cs) = Byte.semicolon ::
        (Fold.all c.lead ++ (c.name.bytes ++ (c.pairBytes.drop c.name.bytes.length ++
          (CookieParameterForm.all c.params ++ later cs)))) := by
      simp [later, bytes, pairBytes]
    have hdollar : ∀ pos tail, (⟨pos, c.name.bytes ++ tail⟩ : Window).eat? Byte.dollar = none := by
      intro pos tail
      have hname := c.name_ne_dollar
      obtain ⟨b, bs, hbytes⟩ := List.exists_cons_of_ne_nil c.name.ne_nil
      rw [hbytes] at hname ⊢
      exact eat?_eq_none.2 hname
    rw [hbytes, eat?_cons, Option.bind_some, Fold.skipFolds_all c.lead (c.name.stops_isSpace _)]
    simp only [cookieParameter, Reader.after, hdollar]
    rfl

def lastTrail : List Fold := CookieParameterForm.trailAfter (c.value.left c.trail) c.params

/-- A cookie is read with its own attributes, whatever cookies follow. -/
theorem read_skip (cs : List CookieForm) (pos : Nat) :
    cookie.read ((⟨pos, c.bytes ++ later cs⟩ : Window).skip isSpace) =
      some (c.place pos, ⟨(c.place pos).span.stop, Fold.all c.lastTrail ++ later cs⟩) := by
  have hlater := atSemicolon_later cs
  have hall : AtSemicolon (CookieParameterForm.all c.params ++ later cs) :=
    Stops.flatMap (by decide) c.params hlater
  -- The pieces are read in their order: the name, the equals sign, the value, the attributes.
  obtain ⟨tail, htail⟩ : ∃ tail, Fold.all c.after ++ (c.value.bytes ++ (Fold.all c.trail ++
      (CookieParameterForm.all c.params ++ later cs))) = tail := ⟨_, rfl⟩
  have hequals : ∀ p, p Byte.equals = false → Stops p (Byte.equals :: tail) := fun _ =>
    Stops.cons_iff.2
  have hlead : (⟨pos, c.bytes ++ later cs⟩ : Window).skip isSpace =
      ⟨c.namePos pos, c.name.bytes ++ (Fold.all c.before ++ Byte.equals :: tail)⟩ := by
    rw [← htail, namePos, ← skip_append (Fold.isSpace_of_mem_all c.lead) (c.name.stops_isSpace _)]
    simp [bytes, pairBytes]
  have hname := c.name.reads (c.namePos pos) _ (Fold.stops_token c.before (hequals _ (by decide)))
  have hvalue := c.value.readValue_skipFolds c.after c.trail
    (c.namePos pos + c.name.bytes.length + (Fold.all c.before).length + 1) hall
  have hparams := CookieParameterForm.parameters_all c.params (c.value.left c.trail)
    (c.valuePos pos + c.value.bytes.length) hlater (read_later cs)
  have hparamsPos :
      c.valuePos pos + c.value.bytes.length + (Fold.all (c.value.left c.trail)).length =
        c.namePos pos + c.pairBytes.length := by
    have hwhite := c.value.length_skipped_add c.after c.trail
    simp only [valuePos, pairBytes, List.length_append, List.length_cons]
    omega
  rw [htail, ← valuePos] at hvalue
  rw [hparamsPos] at hparams
  rw [hlead]
  simp only [cookie, hname, Fold.skipFolds_all c.before (hequals _ (by decide)), eat?_cons,
    Option.bind_eq_bind, Option.bind_some, hvalue, hparams]
  rfl

theorem stop_add_length (pos : Nat) :
    (c.place pos).span.stop + (Fold.all c.lastTrail).length = pos + c.bytes.length := by
  -- Windows of one text end at one place, so what is left of a cookie ends where the cookie does.
  have hle := Window.le_trans (le_of_lt (cookie.lt (c.read_skip [] pos))) (skip_le _ _)
  simpa [later] using pos_add_length hle

theorem next_read (cs : List CookieForm) (gap : List Fold) (pos : Nat) :
    Cookie.next.read ⟨pos, Fold.all gap ++ Byte.semicolon :: (c.bytes ++ later cs)⟩ =
      some (c.place (pos + (Fold.all gap).length + 1),
        ⟨(c.place (pos + (Fold.all gap).length + 1)).span.stop,
          Fold.all c.lastTrail ++ later cs⟩) := by
  have hsemicolon : Stops isSpace (Byte.semicolon :: (c.bytes ++ later cs)) :=
    Stops.cons_iff.2 (by decide)
  simp only [Cookie.next, skip_append (Fold.isSpace_of_mem_all gap) hsemicolon, eat?_cons,
    Option.bind_some, c.read_skip cs]

theorem many_later (cs : List CookieForm) (gap : List Fold) (pos : Nat) :
    (Cookie.next.many ⟨pos, Fold.all gap ++ later cs⟩).1 =
      inTurn (Byte.semicolon :: bytes ·) (fun pos c => c.place (pos + 1))
        (pos + (Fold.all gap).length) cs := by
  induction cs generalizing gap pos with
  | nil =>
    have hnone : Cookie.next.read ⟨pos, Fold.all gap ++ later []⟩ = none := by
      simp only [Cookie.next, later, List.flatMap_nil,
        skip_append (Fold.isSpace_of_mem_all gap) (Stops.nil isSpace)]
      rfl
    rw [Reader.many_of_none hnone]
    rfl
  | cons c cs ih =>
    have hpos :
        (c.place (pos + (Fold.all gap).length + 1)).span.stop + (Fold.all c.lastTrail).length =
          pos + (Fold.all gap).length + (Byte.semicolon :: c.bytes).length := by
      rw [c.stop_add_length, List.length_cons]
      omega
    rw [later, List.flatMap_cons, List.cons_append, ← later,
      Reader.many_of_some (c.next_read cs gap pos), ih, hpos]
    rfl

theorem nul_notMem : 0 ∉ c.bytes := by
  simp [bytes, pairBytes, Fold.nul_notMem, c.name.nul_notMem, c.value.nul_notMem,
    CookieParameterForm.nul_notMem_all, Byte.equals]

/-- A list is read as the cookies of its forms, each where it stands. -/
theorem list_joined (cs : List CookieForm) (pos : Nat) :
    Cookie.list (.cut pos (joined Byte.semicolon bytes cs)) =
      inJoin Byte.semicolon bytes place pos cs := by
  have hnul : ∀ b ∈ joined Byte.semicolon bytes cs, b ≠ 0 :=
    forall_mem_joined (by decide) fun c _ b hb h => c.nul_notMem (h ▸ hb)
  rw [Weighted.cut_of_notMem fun h => hnul 0 h rfl]
  cases cs with
  | nil => rfl
  | cons c cs =>
    rw [Cookie.list, joined, ← later, c.read_skip cs]
    simp only [many_later, c.stop_add_length]
    rfl

end CookieForm

/-- What a cookie says, in bytes. -/
structure CookieText where
  name : List UInt8
  value : List UInt8
  /-- Names and values, with the quotes if there are any. -/
  params : List (List UInt8 × List UInt8)
deriving DecidableEq, Repr

namespace CookieText

variable {text : List UInt8} {pos : Nat}

def ofCookie (text : List UInt8) (c : Cookie) : CookieText where
  name := c.name.bytes text
  value := c.value.bytes text
  params := c.params.map fun p => (p.name.bytes text, p.value.span.bytes text)

def ofForm (c : CookieForm) : CookieText where
  name := c.name.bytes
  value := c.value.content
  params := c.params.map fun p => (p.param.name.bytes, p.param.value.bytes)

theorem params_eq (ps : List CookieParameterForm)
    (h : StandsAt text pos (CookieParameterForm.all ps)) :
    (CookieParameterForm.found pos ps).map
        (fun p => (p.name.bytes text, p.value.span.bytes text)) =
      ps.map fun p => (p.param.name.bytes, p.param.value.bytes) := by
  refine map_inTurn (fun p _ pos hp => ?_) h
  obtain ⟨hcore, -⟩ := StandsAt.append_iff.1 (StandsAt.append_iff.1 hp.tail).2
  exact p.param.bytes_param hcore.tail

theorem ofForm_eq (c : CookieForm) (h : StandsAt text pos c.bytes) :
    ofCookie text (c.place pos) = ofForm c := by
  obtain ⟨hpair, hparams⟩ := StandsAt.append_iff.1 (StandsAt.append_iff.1 h).2
  obtain ⟨hname, hlater⟩ := StandsAt.append_iff.1 hpair
  obtain ⟨-, hvalue⟩ := StandsAt.append_iff.1 (StandsAt.append_iff.1 hlater).2.tail
  have hvaluePos : StandsAt text (c.valuePos pos) c.value.bytes := by
    by_cases hempty : c.value.bytes = []
    · rw [hempty]
      exact List.nil_prefix
    · rw [CookieForm.valuePos, CookieValueForm.skipped, if_neg hempty]
      exact (StandsAt.append_iff.1 hvalue).1
  simp only [ofCookie, ofForm, CookieForm.place, CookieForm.placeParams]
  exact congr (congrArg₂ mk hname.bytes_over (c.value.bytes_span hvaluePos))
    (params_eq c.params hparams)

end CookieText

namespace Cookie

/-- A list of cookies, however it is written, is read as those cookies in order. Each has its name,
its value without quotes and its own attributes, and the range up to the last of these, or else up
to its value. -/
theorem list_written {text : List UInt8} {start : Nat} {stop : Option Nat} (cs : List CookieForm)
    (htext : (Window.upTo text stop).drop start = joined Byte.semicolon CookieForm.bytes cs) :
    list (.of text start stop) =
        inJoin Byte.semicolon CookieForm.bytes CookieForm.place start cs ∧
      (list (.of text start stop)).map (CookieText.ofCookie text) = cs.map CookieText.ofForm := by
  have hstands := StandsAt.drop_upTo text start stop
  rw [htext] at hstands
  have hlist : list (.of text start stop) =
      inJoin Byte.semicolon CookieForm.bytes CookieForm.place start cs := by
    rw [Window.of, htext, CookieForm.list_joined]
  refine ⟨hlist, ?_⟩
  rw [hlist]
  exact map_inJoin (fun c _ _ => CookieText.ofForm_eq c) hstands

/-- An empty value before a blank, a value in quotes with delimiters in it, an attribute, and a
value with an equals sign. -/
theorem list_written_mixed :
    ∃ cs : List CookieForm,
      joined Byte.semicolon CookieForm.bytes cs =
        "a= ;b=\"x;=$\" ; $Version=1 ;c=x=y".toUTF8.data.toList ∧
      list (.of "a= ;b=\"x;=$\" ; $Version=1 ;c=x=y".toUTF8.data.toList 0 none) =
        [⟨⟨0, 3⟩, ⟨0, 1⟩, ⟨3, 3⟩, []⟩,
          ⟨⟨4, 25⟩, ⟨4, 5⟩, ⟨7, 11⟩, [⟨⟨15, 25⟩, ⟨16, 23⟩, .token ⟨24, 25⟩⟩]⟩,
          ⟨⟨27, 32⟩, ⟨27, 28⟩, ⟨29, 32⟩, []⟩] := by
  let blank : Fold := ⟨none, 0x20, by decide⟩
  let a : TokenForm := ⟨[0x61], by decide, List.forall_mem_singleton.2 (by decide)⟩
  let b : TokenForm := ⟨[0x62], by decide, List.forall_mem_singleton.2 (by decide)⟩
  let c : TokenForm := ⟨[0x63], by decide, List.forall_mem_singleton.2 (by decide)⟩
  let one : TokenForm := ⟨[0x31], by decide, List.forall_mem_singleton.2 (by decide)⟩
  let version : TokenForm :=
    ⟨"Version".toUTF8.data.toList, by decide, List.all_eq_true.1 (by decide)⟩
  let quoted : List QuotedPiece := [.plain 0x78 (by decide), .plain 0x3B (by decide),
    .plain 0x3D (by decide), .plain 0x24 (by decide)]
  let cs : List CookieForm :=
    [⟨[], a, by decide, [], [], .plain [] (List.forall_mem_nil _), [blank], []⟩,
      ⟨[], b, by decide, [], [], .quoted quoted, [blank],
        [⟨[blank], ⟨version, [], [], .token one⟩, [blank]⟩]⟩,
      ⟨[], c, by decide, [], [], .plain [0x78, 0x3D, 0x79] (List.all_eq_true.1 (by decide)), [],
        []⟩]
  have htext : (Window.upTo "a= ;b=\"x;=$\" ; $Version=1 ;c=x=y".toUTF8.data.toList none).drop 0 =
      joined Byte.semicolon CookieForm.bytes cs := by
    decide +kernel
  obtain ⟨hlist, -⟩ := list_written cs htext
  exact ⟨cs, htext.symm, hlist.trans (by decide +kernel)⟩

end Cookie

end Recognition.Http

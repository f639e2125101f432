import Recognition.Http.Request
import Recognition.Http.Token
import Recognition.Proofs.Http.Line
import Recognition.Proofs.Http.Scan

namespace Recognition.Http

namespace Window

variable {v w : Window} {b : UInt8} {bs : List UInt8} {k : Nat}

/-- The length of the line break that comes first. -/
def breakLength? : List UInt8 → Option Nat
  | b :: bs =>
    if b = Byte.lf then some 1
    else if b = Byte.cr ∧ bs.head? = some Byte.lf then some 2
    else none
  | [] => none

def afterBreak? (w : Window) : Option Window := (breakLength? w.rest).map w.drop

/-- The window after one stretch of linear white space: a line break or none, and blanks. -/
def afterFold? (w : Window) : Option Window :=
  let v := w.afterBreak?.getD w
  if v.rest.head?.any isBlank then some ((v.drop 1).skip isBlank) else none

theorem breakLength?_cases (h : breakLength? w.rest = some k) :
    (k = 1 ∧ ∃ bs, w.rest = Byte.lf :: bs) ∨ (k = 2 ∧ ∃ bs, w.rest = Byte.cr :: Byte.lf :: bs) := by
  cases hrest : w.rest with
  | nil => simp [hrest, breakLength?] at h
  | cons b bs =>
    rw [hrest, breakLength?] at h
    split at h
    · rename_i hb
      exact .inl ⟨(Option.some.inj h).symm, bs, by rw [hb]⟩
    · split at h
      · rename_i hb
        obtain ⟨rfl, hlf⟩ := hb
        obtain ⟨bs', rfl⟩ := List.head?_eq_some_iff.1 hlf
        exact .inr ⟨(Option.some.inj h).symm, bs', rfl⟩
      · cases h

theorem breakLength?_bounds (h : breakLength? w.rest = some k) : 0 < k ∧ k ≤ w.rest.length := by
  rcases breakLength?_cases h with ⟨rfl, bs, hrest⟩ | ⟨rfl, bs, hrest⟩ <;> simp [hrest]

theorem afterBreak?_lt (h : w.afterBreak? = some v) : v < w := by
  obtain ⟨k, hk, rfl⟩ := Option.map_eq_some_iff.1 h
  obtain ⟨hpos, hle⟩ := breakLength?_bounds hk
  exact ⟨k, hpos, hle, rfl⟩

theorem foldsAt_eq (w : Window) :
    foldsAt w.rest = (w.afterBreak?.getD w).rest.head?.any isBlank := by
  cases hrest : w.rest with
  | nil => simp [afterBreak?, hrest, breakLength?, foldsAt]
  | cons b bs =>
    by_cases hlf : b = Byte.lf
    · have hblank : isBlank Byte.lf = false := by decide
      have hcr : (Byte.lf == Byte.cr) = false := by decide
      simp [afterBreak?, hrest, breakLength?, foldsAt, hlf, hblank, hcr, drop]
    · by_cases hcr : b = Byte.cr ∧ bs.head? = some Byte.lf
      · obtain ⟨rfl, hhead⟩ := hcr
        have hblank : isBlank Byte.cr = false := by decide
        simp [afterBreak?, hrest, breakLength?, foldsAt, hlf, hhead, hblank, drop]
      · have hcr' : (b == Byte.cr && bs.head? == some Byte.lf) = false := by simpa using hcr
        simp [afterBreak?, hrest, breakLength?, foldsAt, hlf, hcr, hcr']

theorem afterFold?_eq_none : w.afterFold? = none ↔ foldsAt w.rest = false := by
  rw [foldsAt_eq, afterFold?]
  simp

theorem foldsAt_of_mem_takeWhile (h : k < (bs.takeWhile isBlank).length) :
    foldsAt (bs.drop k) = true := by
  have hprefix := List.prefix_iff_getElem?.1 (List.takeWhile_prefix isBlank (l := bs)) k h
  have hblank : isBlank (bs.takeWhile isBlank)[k] = true :=
    List.mem_takeWhile_imp (List.getElem_mem h)
  obtain ⟨b, rest, hdrop⟩ : ∃ b rest, bs.drop k = b :: rest := by
    cases hdrop : bs.drop k with
    | nil =>
      have hle := List.drop_eq_nil_iff.1 hdrop
      rw [List.getElem?_eq_none hle] at hprefix
      cases hprefix
    | cons b rest => exact ⟨b, rest, rfl⟩
  have hb : b = (bs.takeWhile isBlank)[k] := by
    rw [← List.head?_drop, hdrop] at hprefix
    exact Option.some.inj hprefix
  rw [hdrop, foldsAt, hb, hblank, Bool.true_or, Bool.true_or]

theorem exists_of_blank (hblank : (w.afterBreak?.getD w).rest.head?.any isBlank = true) :
    ∃ n, w.afterBreak?.getD w = w.drop n ∧ ∀ i < n, foldsAt (w.rest.drop i) = true := by
  have hfolds : foldsAt w.rest = true := by rw [foldsAt_eq, hblank]
  cases hbreak : breakLength? w.rest with
  | none => exact ⟨0, by simp [afterBreak?, hbreak, drop_zero], by simp⟩
  | some n =>
    have hafter : w.afterBreak?.getD w = w.drop n := by simp [afterBreak?, hbreak]
    refine ⟨n, hafter, fun i hi => ?_⟩
    rcases breakLength?_cases hbreak with ⟨rfl, bs, hrest⟩ | ⟨rfl, bs, hrest⟩
    · obtain rfl : i = 0 := by omega
      exact hfolds
    · have hnext : bs.head?.any isBlank = true := by
        rw [hafter, drop, hrest] at hblank
        exact hblank
      obtain rfl | rfl : i = 0 ∨ i = 1 := by omega
      · exact hfolds
      · rw [hrest, List.drop_succ_cons, List.drop_zero, foldsAt, hnext]
        simp

theorem exists_of_afterFold? (h : w.afterFold? = some v) :
    ∃ k, 0 < k ∧ k ≤ w.rest.length ∧ v = w.drop k ∧ ∀ i < k, foldsAt (w.rest.drop i) = true := by
  rw [afterFold?] at h
  split at h
  · rename_i hblank
    obtain ⟨n, hafter, hbreak⟩ := exists_of_blank hblank
    rw [hafter] at h hblank
    obtain ⟨hlt, hskip⟩ := skip_of_any hblank
    obtain rfl := Option.some.inj h
    have hcount := count_le isBlank (w.drop n)
    have hpos := pos_lt (lt_of_le_of_lt (skip_le isBlank _) hlt)
    rw [← hskip, skip_pos] at hpos
    have hlength : (w.drop n).rest.length = w.rest.length - n := List.length_drop
    refine ⟨n + (w.drop n).count isBlank, by omega, by omega, ?_, fun i hi => ?_⟩
    · rw [← hskip, skip, drop_drop]
    · by_cases hin : i < n
      · exact hbreak i hin
      · obtain ⟨j, rfl⟩ := Nat.exists_eq_add_of_le (Nat.le_of_not_lt hin)
        rw [← List.drop_drop]
        exact foldsAt_of_mem_takeWhile (Nat.lt_of_add_lt_add_left hi)
  · cases h

theorem foldCount_of_foldsAt (h : ∀ i < k, foldsAt (bs.drop i) = true) :
    foldCount bs = k + foldCount (bs.drop k) := by
  induction k generalizing bs with
  | zero => simp
  | succ k ih =>
    cases bs with
    | nil => simpa [foldsAt] using h 0 (Nat.succ_pos k)
    | cons b bs =>
      have hfirst : foldsAt (b :: bs) = true := h 0 (Nat.succ_pos k)
      have hlater : ∀ i < k, foldsAt (bs.drop i) = true := fun i hi =>
        h (i + 1) (Nat.succ_lt_succ hi)
      rw [foldCount, if_pos hfirst, ih hlater, List.drop_succ_cons]
      omega

theorem quotedCount?_cons (b : UInt8) (bs : List UInt8) : quotedCount? (b :: bs) =
    if foldsAt (b :: bs) then (quotedCount? bs).map (· + 1)
    else if b = Byte.quote then some 0
    else if b = Byte.backslash then (if bs = [] then none else (quotedCount? bs.tail).map (· + 2))
    else if isControl b then none
    else (quotedCount? bs).map (· + 1) := by
  cases bs <;> rw [quotedCount?.eq_def] <;> rfl

theorem quotedCount?_of_foldsAt (h : ∀ i < k, foldsAt (bs.drop i) = true) :
    quotedCount? bs = (quotedCount? (bs.drop k)).map (k + ·) := by
  induction k generalizing bs with
  | zero => simp
  | succ k ih =>
    cases bs with
    | nil => simpa [foldsAt] using h 0 (Nat.succ_pos k)
    | cons b bs =>
      have hfirst : foldsAt (b :: bs) = true := h 0 (Nat.succ_pos k)
      have hlater : ∀ i < k, foldsAt (bs.drop i) = true := fun i hi =>
        h (i + 1) (Nat.succ_lt_succ hi)
      have hsum : (· + 1) ∘ (k + ·) = (k + 1 + ·) := funext fun n => by
        simp only [Function.comp_apply]
        omega
      rw [quotedCount?_cons, if_pos hfirst, ih hlater, List.drop_succ_cons, Option.map_map, hsum]

theorem skipFolds_of_afterFold? (h : w.afterFold? = some v) :
    v < w ∧ w.skipFolds = v.skipFolds := by
  obtain ⟨k, hpos, hk, rfl, hfolds⟩ := exists_of_afterFold? h
  refine ⟨⟨k, hpos, hk, rfl⟩, ?_⟩
  rw [skipFolds, skipFolds, drop_drop, foldCount_of_foldsAt hfolds]
  rfl

theorem skipFolds_of_none (h : w.afterFold? = none) : w.skipFolds = w := by
  have hfolds := afterFold?_eq_none.1 h
  rw [skipFolds]
  cases hrest : w.rest with
  | nil => rw [foldCount, drop_zero]
  | cons b bs =>
    rw [hrest] at hfolds
    rw [foldCount, if_neg (by simp [hfolds]), drop_zero]

theorem of_afterBreak? (h : w.afterBreak? = some v) :
    Byte.lf ∈ w.rest.takeWhile isSpace ∧ w.skipLine = v := by
  have hlf : isSpace Byte.lf = true := by decide
  have hcr : isSpace Byte.cr = true := by decide
  obtain ⟨k, hk, rfl⟩ := Option.map_eq_some_iff.1 h
  rcases breakLength?_cases hk with ⟨rfl, bs, hrest⟩ | ⟨rfl, bs, hrest⟩
  · have hsplit : w.rest = [] ++ Byte.lf :: bs := hrest
    rw [skipLine_of_split hsplit (by simp)]
    simp [hrest, hlf, drop]
  · have hsplit : w.rest = [Byte.cr] ++ Byte.lf :: bs := hrest
    rw [skipLine_of_split hsplit (by decide)]
    simp [hrest, hlf, hcr, drop]

theorem head?_ne_lf (h : w.afterBreak? = none) : w.rest.head? ≠ some Byte.lf := by
  rintro hhead
  obtain ⟨bs, hrest⟩ := List.head?_eq_some_iff.1 hhead
  simp [afterBreak?, hrest, breakLength?] at h

theorem lf_mem_drop (h : w.afterBreak? = none) (hspace : w.rest.head?.any isSpace = true) :
    Byte.lf ∈ w.rest.takeWhile isSpace ↔ Byte.lf ∈ (w.drop 1).rest.takeWhile isSpace := by
  cases hrest : w.rest with
  | nil => simp [hrest] at hspace
  | cons b bs =>
    have hb : isSpace b = true := by simpa [hrest] using hspace
    have hne : Byte.lf ≠ b := by
      rintro rfl
      exact head?_ne_lf h (by rw [hrest]; rfl)
    simp [drop, hrest, hb, hne]

theorem skipLine_drop (h : w.rest ≠ []) (hlf : w.rest.head? ≠ some Byte.lf) :
    w.drop 1 < w ∧ w.skipLine = (w.drop 1).skipLine := by
  have hany : w.rest.head?.any (· != Byte.lf) = true := by
    cases hrest : w.rest with
    | nil => exact absurd hrest h
    | cons b bs => simpa [hrest] using hlf
  obtain ⟨hlt, hskip⟩ := skip_of_any hany
  exact ⟨hlt, by rw [skipLine, hskip, skipLine]⟩

theorem skipInLine?_drop (h : w.afterBreak? = none) (hspace : w.rest.head?.any isSpace = true) :
    w.skipInLine? = (w.drop 1).skipInLine? := by
  simp only [skipInLine?, lf_mem_drop h hspace, (skip_of_any hspace).2]

theorem skipInLine?_of_head? (h : w.rest.head? = some b) (hspace : isSpace b = false) :
    w.skipInLine? = some w := by
  obtain ⟨bs, hrest⟩ := List.head?_eq_some_iff.1 h
  refine skipInLine?_eq_some.2 ⟨(skip_of_not_any ?_).symm, ?_, ?_⟩ <;> simp [hrest, hspace]

end Window

namespace Scan

open Window

def lineBreak : Scan Nat := do
  match ← peekAt 0 with
  | none => fail
  | some b =>
    if b = Byte.lf then return 1
    else if b = Byte.cr then
      if (← peekAt 1) = some Byte.lf then return 2 else fail
    else fail

def eatBreak : Scan Unit := do
  advance (← lineBreak)

def fold : Scan Unit := do
  ifFound eatBreak pure (pure ())
  accept isBlank
  exhaust (accept isBlank)

def skipFolds : Scan Unit := exhaust fold

theorem follows_lineBreak :
    Follows lineBreak fun w => (breakLength? w.rest).map fun n => (n, w) := by
  intro c
  have hpeek := Cursor.peekAt_zero c
  show FollowsAt c lineBreak ((breakLength? c.window.rest).map fun n => (n, c.window))
  cases hrest : c.window.rest with
  | nil =>
    rw [hrest] at hpeek
    exact .of_none (by simp [lineBreak, peekAt, Bind.bind, hpeek, Except.map, fail])
  | cons b bs =>
    have hnext : c.peekAt 1 = .ok bs.head? := by
      rw [Cursor.peekAt_eq (by simp [hrest]), hrest, List.head?_eq_getElem?]
      rfl
    rw [hrest] at hpeek
    by_cases hlf : b = Byte.lf
    · rw [breakLength?, if_pos hlf]
      refine .of_le ?_ (Window.le_refl _)
      simp [lineBreak, peekAt, Bind.bind, Pure.pure, hpeek, hlf, Except.map]
    · by_cases hcr : b = Byte.cr ∧ bs.head? = some Byte.lf
      · rw [breakLength?, if_neg hlf, if_pos hcr]
        obtain ⟨rfl, hhead⟩ := hcr
        refine .of_le ?_ (Window.le_refl _)
        simp [lineBreak, peekAt, Bind.bind, Pure.pure, hpeek, hnext, hlf, hhead, Except.map]
      · rw [breakLength?, if_neg hlf, if_neg hcr]
        refine .of_none ?_
        by_cases hb : b = Byte.cr
        · have hhead : bs.head? ≠ some Byte.lf := fun hhead => hcr ⟨hb, hhead⟩
          subst hb
          simp [lineBreak, peekAt, Bind.bind, hpeek, hnext, hlf, hhead, Except.map, fail]
        · simp [lineBreak, peekAt, Bind.bind, hpeek, hlf, hb, Except.map, fail]

theorem follows_eatBreak : Follows eatBreak fun w => w.afterBreak?.map fun v => ((), v) := by
  intro c
  have hrun := (follows_lineBreak c).run
  show FollowsAt c eatBreak (c.window.afterBreak?.map fun v => ((), v))
  cases hn : breakLength? c.window.rest with
  | none =>
    rw [afterBreak?, hn]
    exact .of_none (by simp [eatBreak, Bind.bind, hrun, hn])
  | some n =>
    have hadvance := followsAt_advance (breakLength?_bounds hn).2
    rw [afterBreak?, hn]
    exact ⟨by simpa [eatBreak, Bind.bind, hrun, hn] using hadvance.run, hadvance.le⟩

theorem follows_fold : Follows fold fun w => w.afterFold?.map fun v => ((), v) := by
  refine ((follows_eatBreak.ifFound follows_pure (follows_pure ())).bind fun _ =>
    (follows_accept isBlank).bind fun _ => follows_skip isBlank).congr fun w => ?_
  rw [afterFold?]
  cases w.afterBreak? with
  | none =>
    simp only [Option.map_none, Option.elim_none, Option.bind_some, Option.getD_none]
    split <;> rfl
  | some v =>
    simp only [Option.map_some, Option.elim_some, Option.bind_some, Option.getD_some]
    split <;> rfl

theorem follows_skipFolds : Follows skipFolds fun w => some ((), w.skipFolds) := by
  refine follows_fold.exhaust (fun w hnone => ?_) fun w v hsome => ?_
  · exact skipFolds_of_none (by simpa using hnone)
  · exact skipFolds_of_afterFold? (by simpa using hsome)

def skipInLine : Scan Unit :=
  loop (fun _ => ifFound lineBreak (fun _ => fail) do
    let b ← peek
    if isSpace b then
      accept isSpace
      return .inr ()
    else return .inl ()) ()

theorem follows_skipInLine : Follows skipInLine fun w => w.skipInLine?.map fun v => ((), v) := by
  refine Follows.loop (g := fun _ w => w.skipInLine?.map fun v => ((), v)) (fun _ =>
    follows_lineBreak.ifFound (fun _ => follows_fail) (follows_peek.bind fun b =>
      .ite (isSpace b) ((follows_accept isSpace).bind fun _ => follows_pure (.inr ()))
        (follows_pure (.inl ())))) (fun _ w => ?_) ()
  cases hbreak : breakLength? w.rest with
  | some n =>
    have hafter : w.afterBreak? = some (w.drop n) := by rw [afterBreak?, hbreak]; rfl
    have hlf := (of_afterBreak? hafter).1
    simp [Follows.Round, skipInLine?, hlf]
  | none =>
    have hafter : w.afterBreak? = none := by rw [afterBreak?, hbreak]; rfl
    cases hhead : w.rest.head? with
    | none =>
      have hnil := List.head?_eq_none_iff.1 hhead
      simp [Follows.Round, hnil, skipInLine?, skip_rest]
    | some b =>
      by_cases hb : isSpace b
      · have hspace : w.rest.head?.any isSpace = true := by rw [hhead]; exact hb
        simp [Follows.Round, hhead, hb, (skip_of_any hspace).1, skipInLine?_drop hafter hspace]
      · simp [Follows.Round, hb, skipInLine?_of_head? hhead (by simpa using hb)]

def skipLine : Scan Unit :=
  loop (fun _ => ifFound eatBreak (fun _ => pure (.inl ()))
    (ifFound next (fun _ => pure (.inr ())) (pure (.inl ())))) ()

theorem follows_skipLine : Follows skipLine fun w => some ((), w.skipLine) := by
  refine Follows.loop (g := fun _ w => some ((), w.skipLine)) (fun _ =>
    follows_eatBreak.ifFound (fun _ => follows_pure (.inl ()))
      ((follows_accept fun _ => true).ifFound (fun _ => follows_pure (.inr ()))
        (follows_pure (.inl ())))) (fun _ w => ?_) ()
  cases hafter : w.afterBreak? with
  | some v => simp [Follows.Round, (of_afterBreak? hafter).2]
  | none =>
    by_cases hnil : w.rest = []
    · have hend : w.skipLine = w := by
        rw [skipLine_of_notMem (by simp [hnil]), hnil]
        cases w
        simp_all
      simp [Follows.Round, hnil, hend]
    · obtain ⟨hlt, hskip⟩ := skipLine_drop hnil (head?_ne_lf hafter)
      have hany : w.rest.head?.any (fun _ => true) = true := by
        obtain ⟨b, bs, hrest⟩ := List.exists_cons_of_ne_nil hnil
        simp [hrest]
      simp [Follows.Round, hany, hlt, hskip]

/-- Over white space, and through the line break if it comes to one. Yields whether it does. -/
def endLine : Scan Bool :=
  loop (fun _ => ifFound eatBreak (fun _ => pure (.inl true))
    (ifFound (accept isSpace) (fun _ => pure (.inr ())) (pure (.inl false)))) ()

theorem follows_endLine : Follows endLine fun w =>
    if Byte.lf ∈ w.rest.takeWhile isSpace then some (true, w.skipLine)
    else some (false, w.skip isSpace) := by
  refine Follows.loop (g := fun _ w => if Byte.lf ∈ w.rest.takeWhile isSpace
      then some (true, w.skipLine) else some (false, w.skip isSpace)) (fun _ =>
    follows_eatBreak.ifFound (fun _ => follows_pure (.inl true)) ((follows_accept isSpace).ifFound
      (fun _ => follows_pure (.inr ())) (follows_pure (.inl false)))) (fun _ w => ?_) ()
  cases hafter : w.afterBreak? with
  | some v =>
    obtain ⟨hlf, hskip⟩ := of_afterBreak? hafter
    simp [Follows.Round, hlf, hskip]
  | none =>
    by_cases hspace : w.rest.head?.any isSpace
    · have hne : w.rest ≠ [] := by
        rintro hnil
        simp [hnil] at hspace
      obtain ⟨hlt, hskip⟩ := skip_of_any hspace
      simp [Follows.Round, hspace, hlt, hskip, lf_mem_drop hafter hspace,
        (skipLine_drop hne (head?_ne_lf hafter)).2]
    · have hskip := skip_of_not_any (by simpa using hspace)
      have hnil : w.rest.takeWhile isSpace = [] := by
        cases hrest : w.rest with
        | nil => rfl
        | cons b bs => simpa [hrest] using hspace
      simp [Follows.Round, hspace, hskip, hnil]

end Scan

end Recognition.Http

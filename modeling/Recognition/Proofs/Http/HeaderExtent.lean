import Recognition.Proofs.Http.Written.Headers

namespace Recognition.Http

variable {t xs rest : List UInt8} {p : UInt8 → Bool} {b : UInt8}
  {i lo hi e e' start stop colon : Nat}

namespace Window

def onward (t : List UInt8) (i : Nat) : Window := ⟨i, t.drop i⟩

/-- A text up to where it ends if it is read from an offset on. -/
def upToEnd (text : List UInt8) (start : Nat) (stop : Option Nat) : List UInt8 :=
  text.take (endOf text start stop)

theorem length_upToEnd (text : List UInt8) (start : Nat) (stop : Option Nat) :
    (upToEnd text start stop).length = endOf text start stop := by
  have hle := endOf_le text start stop
  have hlength := congrArg List.length (upTo_eq_take text stop)
  rw [List.length_take] at hlength
  rw [upToEnd, List.length_take]
  omega

theorem of_eq_onward (text : List UInt8) (start : Nat) (stop : Option Nat) :
    of text start stop = onward (upToEnd text start stop) start := of_eq text start stop

theorem head?_onward (t : List UInt8) (i : Nat) : (onward t i).rest.head? = t[i]? := List.head?_drop

theorem onward_of_eq (h : t[i]? = some b) : onward t i = ⟨i, b :: t.drop (i + 1)⟩ := by
  obtain ⟨hi, rfl⟩ := List.getElem?_eq_some_iff.1 h
  exact congrArg (Window.mk i) (List.drop_eq_getElem_cons hi)

theorem drop_onward (h : t[i]? = some b) : (onward t i).drop 1 = onward t (i + 1) := by
  rw [onward_of_eq h]
  exact drop_cons i b _

theorem eat?_onward {v : Window} :
    (onward t i).eat? b = some v ↔ t[i]? = some b ∧ v = onward t (i + 1) := by
  rw [eat?_eq_some, head?_onward]
  apply and_congr_right
  intro h
  rw [drop_onward h]

theorem skip_onward (hle : lo ≤ hi) (hrun : ∀ i, lo ≤ i → i < hi → ∃ b ∈ t[i]?, p b = true)
    (hstop : ∀ b ∈ t[hi]?, p b = false) : (onward t lo).skip p = onward t hi := by
  induction hle using Nat.decreasingInduction with
  | self =>
    apply skip_of_stops
    rw [Stops, List.head?_drop]
    exact hstop
  | of_succ i hlt ih =>
    obtain ⟨b, hb, hp⟩ := hrun i (Nat.le_refl i) hlt
    have hany : (onward t i).rest.head?.any p = true := by
      rw [head?_onward, Option.mem_def.1 hb]
      exact hp
    rw [(skip_of_any hany).2, drop_onward hb]
    exact ih fun j hj => hrun j (by omega)

theorem drop_add_of_drop (h : t.drop lo = xs ++ rest) : t.drop (lo + xs.length) = rest := by
  rw [← List.drop_drop, h, List.drop_left]

theorem getElem?_of_drop (h : t.drop lo = xs ++ rest) (hi : i < xs.length) :
    t[lo + i]? = xs[i]? := by
  rw [← List.getElem?_drop, h, List.getElem?_append_left hi]

theorem exists_getElem?_of_drop (h : t.drop lo = xs ++ rest) (hlo : lo ≤ i)
    (hhi : i < lo + xs.length) : ∃ b ∈ xs, t[i]? = some b := by
  obtain ⟨k, rfl⟩ := Nat.exists_eq_add_of_le hlo
  have hk : k < xs.length := by omega
  exact ⟨xs[k], List.getElem_mem hk, (getElem?_of_drop h hk).trans (List.getElem?_eq_getElem hk)⟩

theorem exists_skip_onward (p : UInt8 → Bool) (t : List UInt8) (lo : Nat) :
    ∃ hi, (onward t lo).skip p = onward t hi ∧ lo ≤ hi ∧
      (∀ i, lo ≤ i → i < hi → ∃ b ∈ t[i]?, p b = true) ∧ ∀ b ∈ t[hi]?, p b = false := by
  obtain ⟨xs, rest, hdrop, hxs, hrest⟩ := Stops.exists_append p (t.drop lo)
  refine ⟨lo + xs.length, ?_, Nat.le_add_right _ _, ?_, ?_⟩
  · rw [onward, onward, hdrop, skip_append hxs hrest, drop_add_of_drop hdrop]
  · intro i hlo hhi
    obtain ⟨b, hmem, hb⟩ := exists_getElem?_of_drop hdrop hlo hhi
    exact ⟨b, hb, hxs b hmem⟩
  · intro b hb
    rw [← List.head?_drop, drop_add_of_drop hdrop] at hb
    exact hrest b hb

end Window

open Window

section Spec

def SpaceAt (t : List UInt8) (i : Nat) : Prop := ∃ b ∈ t[i]?, isSpace b = true

/-- A byte that is no white space stands at the offset. -/
def FilledAt (t : List UInt8) (i : Nat) : Prop := ∃ b ∈ t[i]?, isSpace b = false

/-- A line break begins at the offset: a line feed, or a carriage return before one. -/
def BreaksAt (t : List UInt8) (i : Nat) : Prop :=
  t[i]? = some Byte.lf ∨ (t[i]? = some Byte.cr ∧ t[i + 1]? = some Byte.lf)

/-- The line at the offset continues the one before. -/
def ContinuesAt (t : List UInt8) (i : Nat) : Prop := SpaceAt t i ∧ ¬ BreaksAt t i

/-- A name from `start` to `stop` with its colon, white space between the two but no line break. -/
structure Names (t : List UInt8) (start stop colon : Nat) : Prop where
  first : FilledAt t start
  le : start ≤ stop ∧ stop ≤ colon
  name : ∀ i, start ≤ i → i < stop → FilledAt t i ∧ t[i]? ≠ some Byte.colon
  gap : ∀ i, stop ≤ i → i < colon → SpaceAt t i ∧ ¬ BreaksAt t i
  colon : t[colon]? = some Byte.colon

/-- What begins at `lo` ends after the first line feed that no line comes after that continues it,
or else with the text. -/
inductive EndsAt (t : List UInt8) (lo : Nat) : Nat → Prop
  | lineFeed {i : Nat} (hle : lo ≤ i) (hlf : t[i]? = some Byte.lf) (hends : ¬ ContinuesAt t (i + 1))
    (hfirst : ∀ j, lo ≤ j → j < i → t[j]? = some Byte.lf → ContinuesAt t (j + 1)) :
    EndsAt t lo (i + 1)
  | text (h : ∀ j, lo ≤ j → t[j]? = some Byte.lf → ContinuesAt t (j + 1)) : EndsAt t lo t.length

/-- The range covers all that is no white space from `lo` up to `hi`. -/
def Covers (t : List UInt8) (lo hi : Nat) (s : Span) : Prop :=
  ∀ i, lo ≤ i → i < hi → FilledAt t i → s.start ≤ i ∧ i < s.stop

/-- The smallest range that covers what is no white space from `lo` up to `hi`, or an empty one at
`lo` if there is only white space. -/
inductive Trims (t : List UInt8) (lo hi : Nat) : Span → Prop
  | blank (h : ∀ i, lo ≤ i → i < hi → ¬ FilledAt t i) : Trims t lo hi (.empty lo)
  | filled {s : Span} (hsome : ∃ i, lo ≤ i ∧ i < hi ∧ FilledAt t i) (hcovers : Covers t lo hi s)
    (hleast : ∀ s', Covers t lo hi s' → s'.start ≤ s.start ∧ s.stop ≤ s'.stop) : Trims t lo hi s

end Spec

theorem not_filledAt (h : SpaceAt t i) : ¬ FilledAt t i := by
  rintro ⟨b, hb, hfilled⟩
  obtain ⟨b', hb', hspace⟩ := h
  rw [Option.mem_unique hb hb', hspace] at hfilled
  cases hfilled

theorem not_filledAt_of_lf (h : t[i]? = some Byte.lf) : ¬ FilledAt t i :=
  not_filledAt ⟨Byte.lf, h, by decide⟩

theorem not_filledAt_of_drop (h : t.drop lo = xs ++ rest) (hxs : ∀ b ∈ xs, isSpace b = true)
    (hlo : lo ≤ i) (hhi : i < lo + xs.length) : ¬ FilledAt t i := by
  obtain ⟨b, hmem, hb⟩ := exists_getElem?_of_drop h hlo hhi
  exact not_filledAt ⟨b, hb, hxs b hmem⟩

theorem continues_drop (t : List UInt8) (i : Nat) :
    Header.continues (t.drop i) = true ↔ ContinuesAt t i := by
  have hhead : t[i]? = (t.drop i).head? := List.head?_drop.symm
  have hnext : t[i + 1]? = (t.drop i).tail.head? := by
    rw [List.tail_drop, List.head?_drop]
  unfold ContinuesAt SpaceAt BreaksAt
  rw [hhead, hnext]
  cases t.drop i with
  | nil => simp [Header.continues]
  | cons b bs => simp [Header.continues, isLineBreakAt, imp_iff_not_or]

namespace EndsAt

theorem unique (h : EndsAt t lo e) (h' : EndsAt t lo e') : e = e' := by
  cases h with
  | @lineFeed i hle hlf hends hfirst =>
    cases h' with
    | @lineFeed j hle' hlf' hends' hfirst' =>
      rcases Nat.lt_trichotomy i j with hlt | rfl | hlt
      · exact absurd (hfirst' i hle hlt hlf) hends
      · rfl
      · exact absurd (hfirst j hle' hlt hlf') hends'
    | text hall => exact absurd (hall i hle hlf) hends
  | text hall =>
    cases h' with
    | @lineFeed j hle' hlf' hends' _ => exact absurd (hall j hle' hlf') hends'
    | text => rfl

theorem cons (h : EndsAt t (lo + 1) e) (hlo : t[lo]? = some Byte.lf → ContinuesAt t (lo + 1)) :
    EndsAt t lo e := by
  have hboth : ∀ j, lo ≤ j → t[j]? = some Byte.lf → (lo + 1 ≤ j → ContinuesAt t (j + 1)) →
      ContinuesAt t (j + 1) := by
    intro j hj hlf hlater
    rcases Nat.eq_or_lt_of_le hj with rfl | hlt
    · exact hlo hlf
    · exact hlater hlt
  cases h with
  | lineFeed hle hlf hends hfirst =>
    exact lineFeed (by omega) hlf hends fun j hj hlt hlf =>
      hboth j hj hlf fun hj' => hfirst j hj' hlt hlf
  | text h => exact text fun j hj hlf => hboth j hj hlf fun hj' => h j hj' hlf

theorem lineCount (hle : lo ≤ t.length) : EndsAt t lo (lo + Header.lineCount (t.drop lo)) := by
  -- From the end of the text backwards, one byte more each time.
  induction hle using Nat.decreasingInduction with
  | self =>
    rw [List.drop_length]
    exact text fun j hj hlf => absurd hlf (by simp [hj])
  | of_succ lo hlt ih =>
    rw [List.drop_eq_getElem_cons hlt]
    have hlo := List.getElem?_eq_getElem hlt
    unfold Header.lineCount
    by_cases hends : (t[lo] == Byte.lf && !Header.continues (t.drop (lo + 1))) = true
    · rw [if_pos hends]
      rw [Bool.and_eq_true, beq_iff_eq, Bool.not_eq_true'] at hends
      refine lineFeed (Nat.le_refl lo) (hlo.trans (congrArg some hends.1)) ?_ (by omega)
      rw [← continues_drop, hends.2]
      exact Bool.false_ne_true
    · rw [if_neg hends, Nat.add_comm (Header.lineCount _), ← Nat.add_assoc]
      apply cons ih
      intro hlf
      rw [hlo, Option.some.injEq] at hlf
      rw [← continues_drop]
      simpa [hlf] using hends

theorem continuesAt (h : EndsAt t lo e) (hlo : lo ≤ i) (hlt : i + 1 < e)
    (hlf : t[i]? = some Byte.lf) : ContinuesAt t (i + 1) := by
  cases h with
  | lineFeed _ _ _ hfirst => exact hfirst i hlo (by omega) hlf
  | text hall => exact hall i hlo hlf

theorem le_length (h : EndsAt t lo e) : e ≤ t.length := by
  cases h with
  | lineFeed _ hlf => exact (List.getElem?_eq_some_iff.1 hlf).1
  | text => exact Nat.le_refl _

theorem lineCount_le (hle : lo ≤ t.length) :
    Header.lineCount (t.drop lo) ≤ (t.drop lo).length := by
  have hend := (lineCount hle).le_length
  rw [List.length_drop]
  omega

end EndsAt

namespace Trims

variable {s s' : Span} {lead value trail : List UInt8}

theorem unique (h : Trims t lo hi s) (h' : Trims t lo hi s') : s = s' := by
  cases h with
  | blank hblank =>
    cases h' with
    | blank => rfl
    | filled hsome =>
      obtain ⟨i, hlo, hhi, hfilled⟩ := hsome
      exact absurd hfilled (hblank i hlo hhi)
  | filled hsome hcovers hleast =>
    cases h' with
    | blank hblank =>
      obtain ⟨i, hlo, hhi, hfilled⟩ := hsome
      exact absurd hfilled (hblank i hlo hhi)
    | filled _ hcovers' hleast' =>
      have hle := hleast s' hcovers'
      have hge := hleast' s hcovers
      exact congrArg₂ Span.mk (by omega) (by omega)

theorem of_drop (hdrop : t.drop lo = lead ++ (value ++ (trail ++ rest)))
    (hhi : hi = lo + lead.length + value.length + trail.length)
    (hlead : ∀ b ∈ lead, isSpace b = true) (hne : value ≠ [])
    (hfirst : ∀ b ∈ value.head?, isSpace b = false)
    (hlast : ∀ b ∈ value.getLast?, isSpace b = false)
    (htrail : ∀ b ∈ trail, isSpace b = true) :
    Trims t lo hi (.over (lo + lead.length) value) := by
  have hlength : 0 < value.length := List.length_pos_iff.2 hne
  have hvalue := drop_add_of_drop hdrop
  have hafter := drop_add_of_drop hvalue
  have hfilled : ∀ k < value.length, (∀ b ∈ value[k]?, isSpace b = false) →
      FilledAt t (lo + lead.length + k) := by
    intro k hk hb
    have hget := getElem?_of_drop hvalue hk
    rw [List.getElem?_eq_getElem hk] at hget hb
    exact ⟨value[k], hget, hb _ rfl⟩
  rw [List.head?_eq_getElem?] at hfirst
  rw [List.getLast?_eq_getElem?] at hlast
  have hstart := hfilled 0 hlength hfirst
  have hend := hfilled (value.length - 1) (by omega) hlast
  refine filled ⟨_, by omega, by omega, hstart⟩ ?_ ?_
  · intro i hlo hi' hi
    change lo + lead.length ≤ i ∧ i < lo + lead.length + value.length
    by_contra hout
    -- What is not in the range is white space before or after it.
    rw [not_and_or] at hout
    rcases hout with hbefore | hbeyond
    · exact not_filledAt_of_drop hdrop hlead hlo (by omega) hi
    · exact not_filledAt_of_drop hafter htrail (by omega) (by omega) hi
  · intro s' hcovers
    have hleft := (hcovers _ (by omega) (by omega) hstart).1
    have hright := (hcovers _ (by omega) (by omega) hend).2
    change s'.start ≤ lo + lead.length ∧ lo + lead.length + value.length ≤ s'.stop
    omega

theorem exists_value (bytes : List UInt8) :
    (∀ b ∈ bytes, isSpace b = true) ∨ ∃ lead value trail : List UInt8,
      bytes = lead ++ (value ++ trail) ∧ (∀ b ∈ lead, isSpace b = true) ∧ value ≠ [] ∧
      (∀ b ∈ value.head?, isSpace b = false) ∧ (∀ b ∈ value.getLast?, isSpace b = false) ∧
      ∀ b ∈ trail, isSpace b = true := by
  obtain ⟨lead, later, rfl, hlead, hlater⟩ := Stops.exists_append isSpace bytes
  obtain ⟨trail, value, hreverse, htrail, hvalue⟩ := Stops.exists_append isSpace later.reverse
  have hsplit : later = value.reverse ++ trail.reverse := by
    rw [← List.reverse_append, ← hreverse, List.reverse_reverse]
  by_cases hne : value = []
  · left
    have hall : ∀ b ∈ later, isSpace b = true := by
      intro b hb
      rw [hsplit, hne, List.reverse_nil, List.nil_append, List.mem_reverse] at hb
      exact htrail b hb
    intro b hb
    rcases List.mem_append.1 hb with hb | hb
    · exact hlead b hb
    · exact hall b hb
  · right
    refine ⟨lead, value.reverse, trail.reverse, by rw [hsplit], hlead, by simpa using hne, ?_, ?_,
      by simpa using htrail⟩
    · intro b hb
      apply hlater b
      rw [hsplit, List.head?_append_of_ne_nil _ (by simpa using hne)]
      exact hb
    · intro b hb
      rw [List.getLast?_reverse] at hb
      exact hvalue b hb

theorem trimmed (hle : lo ≤ hi) (hhi : hi ≤ t.length) :
    Trims t lo hi (Header.trimmed lo ((t.drop lo).take (hi - lo))) := by
  have hlength : ((t.drop lo).take (hi - lo)).length = hi - lo := by
    rw [List.length_take, List.length_drop]
    omega
  have hdrop := (List.take_append_drop (hi - lo) (t.drop lo)).symm
  rcases exists_value ((t.drop lo).take (hi - lo)) with
    hall | ⟨lead, value, trail, hsplit, hlead, hne, hfirst, hlast, htrail⟩
  · rw [Header.trimmed_of_all hall]
    apply blank
    intro i hi hi'
    exact not_filledAt_of_drop hdrop hall hi (by omega)
  · rw [hsplit, Header.trimmed_append hlead hne hfirst hlast htrail]
    rw [hsplit, List.append_assoc, List.append_assoc] at hdrop
    rw [hsplit, List.length_append, List.length_append] at hlength
    exact of_drop hdrop (by omega) hlead hne hfirst hlast htrail

theorem lt_of_lf (h : Trims t lo hi s) (hstart : s.start ≤ i) (hstop : i < s.stop)
    (hlf : t[i]? = some Byte.lf) : lo ≤ i ∧ i + 1 < hi := by
  cases h with
  | blank =>
    change lo ≤ i at hstart
    change i < lo at hstop
    omega
  | filled hsome hcovers hleast =>
    have hwithin : Covers t lo hi ⟨lo, hi⟩ := fun j hj hj' _ => ⟨hj, hj'⟩
    -- Without a line feed at its end the range would cover as much.
    have hbefore : i + 1 = s.stop → Covers t lo hi ⟨s.start, i⟩ := by
      intro heq j hj hj' hfilled
      have hbounds := hcovers j hj hj' hfilled
      have hne : j ≠ i := by
        rintro rfl
        exact not_filledAt_of_lf hlf hfilled
      refine ⟨hbounds.1, ?_⟩
      change j < i
      omega
    have hle : lo ≤ s.start ∧ s.stop ≤ hi := hleast _ hwithin
    refine ⟨by omega, ?_⟩
    by_contra hge
    have heq : i + 1 = s.stop := by omega
    have hstop' : s.stop ≤ i := (hleast _ (hbefore heq)).2
    omega

end Trims

section Names

variable {v : Window}

theorem mem_takeWhile_onward : b ∈ (onward t lo).rest.takeWhile p ↔
    ∃ i, lo ≤ i ∧ i < ((onward t lo).skip p).pos ∧ t[i]? = some b := by
  obtain ⟨xs, rest, hdrop, hxs, hrest⟩ := Stops.exists_append p (t.drop lo)
  have htake : (onward t lo).rest.takeWhile p = xs := by
    rw [onward, hdrop, List.takeWhile_append_of_pos hxs, hrest.takeWhile, List.append_nil]
  have hskip : ((onward t lo).skip p).pos = lo + xs.length := by
    rw [onward, hdrop, skip_append hxs hrest]
  rw [htake, hskip]
  constructor
  · intro hb
    obtain ⟨k, hk, rfl⟩ := List.getElem_of_mem hb
    exact ⟨lo + k, by omega, by omega,
      (getElem?_of_drop hdrop hk).trans (List.getElem?_eq_getElem hk)⟩
  · rintro ⟨i, hlo, hhi, hi⟩
    obtain ⟨c, hmem, hc⟩ := exists_getElem?_of_drop hdrop hlo hhi
    rw [hi, Option.some.injEq] at hc
    rw [hc]
    exact hmem

theorem skipInLine?_onward (hle : lo ≤ hi)
    (hgap : ∀ i, lo ≤ i → i < hi → SpaceAt t i ∧ ¬ BreaksAt t i) (hfilled : FilledAt t hi) :
    (onward t lo).skipInLine? = some (onward t hi) := by
  obtain ⟨b, hb, hspace⟩ := hfilled
  have hskip : (onward t lo).skip isSpace = onward t hi := by
    apply skip_onward hle fun i hlo hhi => (hgap i hlo hhi).1
    intro c hc
    rw [Option.mem_unique hc hb]
    exact hspace
  rw [skipInLine?_eq_some, hskip, mem_takeWhile_onward, hskip]
  refine ⟨rfl, ?_, ?_⟩
  · rintro ⟨i, hlo, hhi, hi⟩
    exact (hgap i hlo hhi).2 (.inl hi)
  · rw [onward_of_eq hb]
    exact List.cons_ne_nil _ _

theorem exists_of_skipInLine?_onward (h : (onward t lo).skipInLine? = some v) :
    ∃ hi, v = onward t hi ∧ lo ≤ hi ∧
      ∀ i, lo ≤ i → i < hi → SpaceAt t i ∧ ¬ BreaksAt t i := by
  obtain ⟨hv, hlf, -⟩ := skipInLine?_eq_some.1 h
  obtain ⟨hi, hskip, hle, hrun, hstop⟩ := exists_skip_onward isSpace t lo
  rw [mem_takeWhile_onward, hskip] at hlf
  refine ⟨hi, hv.trans hskip, hle, fun i hlo hhi => ⟨hrun i hlo hhi, ?_⟩⟩
  have hnone : ∀ j, lo ≤ j → j < hi → t[j]? ≠ some Byte.lf := fun j hj hj' hlf' =>
    hlf ⟨j, hj, hj', hlf'⟩
  rintro (hlf' | ⟨-, hlf'⟩)
  · exact hnone i hlo hhi hlf'
  · -- A line feed is white space, so it would be skipped as well.
    have hne : i + 1 ≠ hi := by
      rintro rfl
      exact absurd (hstop _ hlf') (by decide)
    exact hnone (i + 1) (by omega) (by omega) hlf'

def Header.extent (t : List UInt8) (start stop colon : Nat) : Header :=
  let n := Header.lineCount (t.drop (colon + 1))
  ⟨⟨start, colon + 1 + n⟩, ⟨start, stop⟩, Header.trimmed (colon + 1) ((t.drop (colon + 1)).take n)⟩

theorem Names.lt_length (h : Names t start stop colon) : colon < t.length :=
  (List.getElem?_eq_some_iff.1 h.colon).1

theorem Names.read (h : Names t start stop colon) :
    (header.read (onward t start)).map Prod.fst = some (Header.extent t start stop colon) := by
  have hcolonFilled : FilledAt t colon := ⟨Byte.colon, h.colon, by decide⟩
  obtain ⟨b, hb, hfilled⟩ := h.first
  have hfirst : (onward t start).rest.head?.all isSpace = false := by
    rw [head?_onward, Option.mem_def.1 hb]
    exact hfilled
  have hname : (onward t start).skip (fun b => b != Byte.colon && !isSpace b) = onward t stop := by
    apply skip_onward h.le.1
    · intro i hlo hhi
      obtain ⟨⟨c, hc, hspace⟩, hne⟩ := h.name i hlo hhi
      refine ⟨c, hc, ?_⟩
      have hcolon : c ≠ Byte.colon := by
        rintro rfl
        exact hne hc
      simp [hcolon, hspace]
    · -- The name stops at the colon or at white space before it.
      intro c hc
      rcases Nat.eq_or_lt_of_le h.le.2 with rfl | hlt
      · have hcolon := Option.mem_unique hc h.colon
        simp [hcolon]
      · obtain ⟨c', hc', hspace⟩ := (h.gap stop (Nat.le_refl _) hlt).1
        rw [Option.mem_unique hc hc', hspace]
        simp
  have hgap := skipInLine?_onward h.le.2 h.gap hcolonFilled
  rw [← hname] at hgap
  have heat := eat?_onward.2 ⟨h.colon, rfl⟩
  have hcount := EndsAt.lineCount_le h.lt_length
  rw [header_of_colon hfirst hgap heat, hname, Option.map_some]
  simp only [Header.extent, spanTo, drop, Nat.min_eq_left hcount, onward]

theorem exists_names (h : header.read (onward t start) ≠ none) :
    ∃ stop colon, Names t start stop colon := by
  obtain ⟨⟨found, u⟩, hread⟩ := Option.ne_none_iff_exists'.1 h
  simp only [header, Option.bind_eq_bind] at hread
  split at hread
  · cases hread
  · rename_i hfirst
    simp only [Option.bind_eq_some_iff] at hread
    obtain ⟨v, hv, x, hx, -⟩ := hread
    obtain ⟨stop, hskip, hle, hname, -⟩ :=
      exists_skip_onward (fun b => b != Byte.colon && !isSpace b) t start
    rw [run, hskip] at hv
    obtain ⟨colon, rfl, hle', hgap⟩ := exists_of_skipInLine?_onward hv
    refine ⟨stop, colon, ?_, ⟨hle, hle'⟩, ?_, hgap, (eat?_onward.1 hx).1⟩
    · rw [head?_onward] at hfirst
      cases hstart : t[start]? with
      | none => simp [hstart] at hfirst
      | some b => exact ⟨b, hstart, by simpa [hstart] using hfirst⟩
    · intro i hlo hhi
      obtain ⟨b, hb, hp⟩ := hname i hlo hhi
      rw [Bool.and_eq_true, bne_iff_ne, Bool.not_eq_true'] at hp
      refine ⟨⟨b, hb, hp.2⟩, fun hcolon => hp.1 ?_⟩
      exact Option.mem_unique hb hcolon

/-- The header of a name ends, and its value is trimmed, as the offsets tell. -/
theorem Names.eq_extent_iff (hn : Names t start stop colon) {h : Header} :
    h = Header.extent t start stop colon ↔ h.span.start = start ∧ h.name = ⟨start, stop⟩ ∧
      EndsAt t colon h.span.stop ∧ Trims t (colon + 1) h.span.stop h.value := by
  have hcolon : t[colon]? ≠ some Byte.lf := by
    rw [hn.colon]
    decide
  have hends := (EndsAt.lineCount hn.lt_length).cons fun hlf => absurd hlf hcolon
  have htrims := Trims.trimmed (Nat.le_add_right _ _) (EndsAt.le_length hends)
  rw [Nat.add_sub_cancel_left] at htrims
  constructor
  · rintro rfl
    exact ⟨rfl, rfl, hends, htrims⟩
  · rintro ⟨hstart, hname, hstop, hvalue⟩
    have hend := hstop.unique hends
    rw [hend] at hvalue
    obtain ⟨⟨_, _⟩, _, _⟩ := h
    exact Header.mk.injEq .. ▸ ⟨congrArg₂ Span.mk hstart hend, hname, hvalue.unique htrims⟩

theorem read_onward_eq_some {h : Header} :
    (header.read (onward t start)).map Prod.fst = some h ↔
      h.span.start = start ∧ h.name.start = start ∧ ∃ colon, Names t start h.name.stop colon ∧
        EndsAt t colon h.span.stop ∧ Trims t (colon + 1) h.span.stop h.value := by
  constructor
  · intro hread
    have hsome : header.read (onward t start) ≠ none := by
      intro hnone
      rw [hnone] at hread
      cases hread
    obtain ⟨nameStop, colon, hn⟩ := exists_names hsome
    rw [hn.read, Option.some.injEq] at hread
    obtain ⟨hstart, hname, hends, htrims⟩ := hn.eq_extent_iff.1 hread.symm
    rw [hname]
    exact ⟨hstart, rfl, colon, hn, hends, htrims⟩
  · rintro ⟨hstart, hname, colon, hn, hends, htrims⟩
    have hspan : h.name = ⟨start, h.name.stop⟩ := congrArg (Span.mk · h.name.stop) hname
    rw [hn.read, ← hn.eq_extent_iff.2 ⟨hstart, hspan, hends, htrims⟩]

end Names

/-- A header is read exactly where a name stands that is followed by a colon on its line, and is
told by the offsets of the text. It ends after the first line that no line continues, or with the
text; its value is the smallest range that covers what is no white space between the colon and the
end, or an empty one right after the colon. So within a value each line is continued by the next. -/
theorem header_extent (text : List UInt8) (start : Nat) (stop : Option Nat) :
    (upToEnd text start stop).length = endOf text start stop ∧
    ((Element.header.parse text start stop).isSome = true ↔
      ∃ nameStop colon, Names (upToEnd text start stop) start nameStop colon) ∧
    (∀ h, Element.header.parse text start stop = some h ↔
      h.span.start = start ∧ h.name.start = start ∧
      ∃ colon, Names (upToEnd text start stop) start h.name.stop colon ∧
        EndsAt (upToEnd text start stop) colon h.span.stop ∧
        Trims (upToEnd text start stop) (colon + 1) h.span.stop h.value) ∧
    ∀ h, Element.header.parse text start stop = some h → ∀ i, h.value.start ≤ i → i < h.value.stop →
      (upToEnd text start stop)[i]? = some Byte.lf →
        ContinuesAt (upToEnd text start stop) (i + 1) := by
  refine ⟨length_upToEnd text start stop, ?_⟩
  generalize htext : upToEnd text start stop = t
  have hparse : Element.header.parse text start stop =
      (header.read (onward t start)).map Prod.fst := by
    rw [Element.parse, of_eq_onward, htext]
    rfl
  rw [hparse]
  refine ⟨?_, fun h => read_onward_eq_some, ?_⟩
  · constructor
    · intro hsome
      apply exists_names
      rintro hnone
      simp [hnone] at hsome
    · rintro ⟨nameStop, colon, hn⟩
      rw [hn.read]
      rfl
  · intro h hread i hstart hstop hlf
    obtain ⟨-, -, colon, -, hends, htrims⟩ := read_onward_eq_some.1 hread
    obtain ⟨hlo, hlt⟩ := htrims.lt_of_lf hstart hstop hlf
    exact hends.continuesAt (by omega) hlt hlf

/-- A value over three lines, one of white space alone and one after a carriage return, before a
blank line, which continues nothing. -/
theorem header_extent_of_folded :
    ContinuesAt (upToEnd "a : b\r\n\t\n\rc \n\r\nd".toUTF8.data.toList 0 none) 7 := by
  have hparse : Element.header.parse "a : b\r\n\t\n\rc \n\r\nd".toUTF8.data.toList 0 none =
      some ⟨⟨0, 13⟩, ⟨0, 1⟩, ⟨4, 11⟩⟩ := by
    decide +kernel
  exact (header_extent "a : b\r\n\t\n\rc \n\r\nd".toUTF8.data.toList 0 none).2.2.2 _ hparse 6
    (by decide) (by decide) (by decide +kernel)

end Recognition.Http

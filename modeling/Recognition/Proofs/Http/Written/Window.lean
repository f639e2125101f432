import Recognition.Proofs.Http.Line

namespace Recognition

/-- The range of the bytes that begin at `pos`. -/
def Span.over (pos : Nat) (bytes : List UInt8) : Span := ⟨pos, pos + bytes.length⟩

def Span.bytes (s : Span) (text : List UInt8) : List UInt8 := (text.drop s.start).take s.length

namespace Http

def spaces : List UInt8 := [0x20, Byte.tab, 0x0B, 0x0C, Byte.lf, Byte.cr]

theorem mem_spaces {b : UInt8} (h : isSpace b = true) : b ∈ spaces := by
  simp only [isSpace, isBlank, Bool.or_eq_true, beq_iff_eq] at h
  rcases h with ((((rfl | rfl) | rfl) | rfl) | rfl) | rfl <;> decide

theorem isSpace_eq_false {p : UInt8 → Bool} (hp : spaces.any p = false) {b : UInt8}
    (hb : p b = true) : isSpace b = false := by
  by_contra hspace
  exact List.any_eq_false.1 hp b (mem_spaces (by simpa using hspace)) hb

/-- Either way to end a line. -/
inductive LineBreak where
  | lf | crlf
deriving DecidableEq, Repr

namespace LineBreak

def bytes : LineBreak → List UInt8
  | lf => [Byte.lf]
  | crlf => [Byte.cr, Byte.lf]

theorem isSpace_of_mem {n : LineBreak} {b : UInt8} (h : b ∈ n.bytes) : isSpace b = true := by
  cases n <;> simp only [bytes, List.mem_cons, List.not_mem_nil, or_false] at h <;>
    rcases h with rfl | rfl <;> rfl

theorem nul_notMem (n : LineBreak) : 0 ∉ n.bytes := by
  cases n <;> decide

end LineBreak

/-- The bytes stand in the text from `pos` on. -/
def StandsAt (text : List UInt8) (pos : Nat) (bytes : List UInt8) : Prop := bytes <+: text.drop pos

namespace StandsAt

variable {text xs ys : List UInt8} {b : UInt8} {pos : Nat}

theorem append_iff : StandsAt text pos (xs ++ ys) ↔
    StandsAt text pos xs ∧ StandsAt text (pos + xs.length) ys := by
  simp only [StandsAt, ← List.drop_drop]
  constructor
  · rintro ⟨rest, hrest⟩
    rw [List.append_assoc] at hrest
    exact ⟨⟨ys ++ rest, hrest⟩, ⟨rest, by rw [← hrest, List.drop_left]⟩⟩
  · rintro ⟨⟨rest, hrest⟩, hys⟩
    rw [← hrest, List.drop_left] at hys
    obtain ⟨rest', rfl⟩ := hys
    exact ⟨rest', by rw [← hrest, List.append_assoc]⟩

theorem tail (h : StandsAt text pos (b :: ys)) : StandsAt text (pos + 1) ys :=
  (append_iff.1 (show StandsAt text pos ([b] ++ ys) from h)).2

theorem between (before xs after : List UInt8) :
    StandsAt (before ++ xs ++ after) before.length xs := by
  rw [StandsAt, List.append_assoc, List.drop_left]
  exact List.prefix_append xs after

theorem drop_upTo (text : List UInt8) (start : Nat) (stop : Option Nat) :
    StandsAt text start ((Window.upTo text stop).drop start) := by
  cases stop with
  | none => exact List.prefix_refl _
  | some e =>
    rw [StandsAt, Window.upTo, List.drop_take]
    exact List.take_prefix _ _

theorem of_bytesOf {start : Nat} {stop : Option Nat}
    (h : Window.bytesOf text start stop = xs ++ ys) : StandsAt text start xs := by
  have hprefix : Window.bytesOf text start stop <+: text.drop start := by
    rw [Window.bytesOf, List.drop_take]
    exact List.take_prefix _ _
  rw [h] at hprefix
  exact (List.prefix_append xs ys).trans hprefix

theorem bytes_over (h : StandsAt text pos xs) : (Span.over pos xs).bytes text = xs := by
  rw [Span.bytes, Span.length, Span.over, Nat.add_sub_cancel_left]
  exact (List.prefix_iff_eq_take.1 h).symm

end StandsAt

/-- The bytes do not go on with one of a class. -/
def Stops (p : UInt8 → Bool) (rest : List UInt8) : Prop := ∀ b, rest.head? = some b → p b = false

namespace Stops

variable {p q : UInt8 → Bool} {b : UInt8} {rest : List UInt8}

theorem nil (p : UInt8 → Bool) : Stops p [] := by
  intro b h
  cases h

theorem cons_iff : Stops p (b :: rest) ↔ p b = false := by
  simp [Stops]

theorem append {xs : List UInt8} (hne : xs ≠ []) (h : ∀ b ∈ xs.head?, p b = false) :
    Stops p (xs ++ rest) := by
  obtain ⟨b, bs, rfl⟩ := List.exists_cons_of_ne_nil hne
  exact cons_iff.2 (h b rfl)

theorem mono (h : Stops q rest) (hpq : ∀ b, p b = true → q b = true) : Stops p rest := by
  intro b hb
  have hq := h b hb
  by_contra hp
  rw [hpq b (by simpa using hp)] at hq
  cases hq

theorem head?_ne (h : Stops p rest) (hb : p b = true) : rest.head? ≠ some b := by
  intro hhead
  rw [h b hhead] at hb
  cases hb

theorem takeWhile (h : Stops p rest) : rest.takeWhile p = [] := by
  cases rest with
  | nil => rfl
  | cons b bs => rw [List.takeWhile_cons_of_neg (by simp [cons_iff.1 h])]

theorem dropWhile (h : Stops p rest) : rest.dropWhile p = rest := by
  cases rest with
  | nil => rfl
  | cons b bs => rw [List.dropWhile_cons_of_neg (by simp [cons_iff.1 h])]

theorem flatMap {β : Type} {sep : UInt8} {bytes : β → List UInt8} (hsep : p sep = false)
    (xs : List β) (hrest : Stops p rest) : Stops p (xs.flatMap (sep :: bytes ·) ++ rest) := by
  cases xs with
  | nil => exact hrest
  | cons x xs => exact cons_iff.2 hsep

theorem exists_append (p : UInt8 → Bool) (bytes : List UInt8) :
    ∃ xs rest, bytes = xs ++ rest ∧ (∀ b ∈ xs, p b = true) ∧ Stops p rest := by
  refine ⟨bytes.takeWhile p, bytes.dropWhile p, List.takeWhile_append_dropWhile.symm,
    fun b hb => List.mem_takeWhile_imp hb, ?_⟩
  intro b hb
  have hhead := List.head?_dropWhile_not p bytes
  rw [hb] at hhead
  exact hhead

end Stops

namespace Window

variable {p : UInt8 → Bool} {b : UInt8} {pos : Nat} {xs rest : List UInt8}

theorem drop_append (pos : Nat) (xs rest : List UInt8) :
    (⟨pos, xs ++ rest⟩ : Window).drop xs.length = ⟨pos + xs.length, rest⟩ := by
  simp [drop]

theorem drop_cons (pos : Nat) (b : UInt8) (rest : List UInt8) :
    (⟨pos, b :: rest⟩ : Window).drop 1 = ⟨pos + 1, rest⟩ :=
  drop_append pos [b] rest

theorem count_append (hxs : ∀ b ∈ xs, p b = true) (hrest : Stops p rest) :
    (⟨pos, xs ++ rest⟩ : Window).count p = xs.length := by
  rw [count, List.takeWhile_append_of_pos hxs, hrest.takeWhile, List.append_nil]

theorem skip_append (hxs : ∀ b ∈ xs, p b = true) (hrest : Stops p rest) :
    (⟨pos, xs ++ rest⟩ : Window).skip p = ⟨pos + xs.length, rest⟩ := by
  rw [skip, count_append hxs hrest, drop_append]

theorem skip_of_stops (hrest : Stops p rest) : (⟨pos, rest⟩ : Window).skip p = ⟨pos, rest⟩ := by
  rw [skip, count, hrest.takeWhile, List.length_nil, drop_zero]

theorem run_append (hxs : ∀ b ∈ xs, p b = true) (hrest : Stops p rest) :
    (⟨pos, xs ++ rest⟩ : Window).run p = (.over pos xs, ⟨pos + xs.length, rest⟩) := by
  rw [run, skip_append hxs hrest]
  rfl

theorem run?_append (hne : xs ≠ []) (hxs : ∀ b ∈ xs, p b = true) (hrest : Stops p rest) :
    (⟨pos, xs ++ rest⟩ : Window).run? p = some (.over pos xs, ⟨pos + xs.length, rest⟩) := by
  rw [run?, count_append hxs hrest, run_append hxs hrest, if_neg]
  simpa using hne

theorem eat?_cons (pos : Nat) (b : UInt8) (rest : List UInt8) :
    (⟨pos, b :: rest⟩ : Window).eat? b = some ⟨pos + 1, rest⟩ := by
  rw [eat?_eq_some]
  exact ⟨rfl, (drop_cons pos b rest).symm⟩

theorem eat?_of_stops (hb : p b = true) (hrest : Stops p rest) :
    (⟨pos, rest⟩ : Window).eat? b = none :=
  eat?_eq_none.2 (hrest.head?_ne hb)

theorem skipInLine?_of_stops (hne : rest ≠ []) (hrest : Stops isSpace rest) :
    (⟨pos, rest⟩ : Window).skipInLine? = some ⟨pos, rest⟩ := by
  rw [skipInLine?_eq_some, skip_of_stops hrest, hrest.takeWhile]
  exact ⟨rfl, List.not_mem_nil, hne⟩

theorem bytesOf_of_notMem {text : List UInt8} (h : 0 ∉ text) : bytesOf text 0 none = text := by
  have hwindow := congrArg Window.rest (of_eq text 0 none)
  refine hwindow.symm.trans (List.takeWhile_eq_self_iff.2 ?_)
  intro b hb
  simp only [decide_eq_true_eq]
  rintro rfl
  exact h hb

theorem exists_of_eq {before xs : List UInt8} {stop : Option Nat} (after : List UInt8)
    (hnul : 0 ∉ xs) (hstop : ∀ e, stop = some e → (before ++ xs).length ≤ e) :
    ∃ rest, Window.of (before ++ xs ++ after) before.length stop = ⟨before.length, xs ++ rest⟩ := by
  have hupTo : ∃ after', upTo (before ++ xs ++ after) stop = before ++ (xs ++ after') := by
    cases stop with
    | none => exact ⟨after, List.append_assoc _ _ _⟩
    | some e =>
      refine ⟨after.take (e - (before ++ xs).length), ?_⟩
      rw [upTo, List.take_append, List.take_of_length_le (hstop e rfl), List.append_assoc]
  obtain ⟨after', hafter⟩ := hupTo
  have hnonzero : ∀ b ∈ xs, decide (b ≠ 0) = true := by
    intro b hb
    simp only [decide_eq_true_eq]
    rintro rfl
    exact hnul hb
  refine ⟨after'.takeWhile (· ≠ 0), ?_⟩
  rw [Window.of, hafter, List.drop_left, cut, List.takeWhile_append_of_pos hnonzero]

end Window

/-- The values of writings that come one after the other, each placed where the one before ends. -/
def inTurn {α β : Type} (bytes : β → List UInt8) (place : Nat → β → α) : Nat → List β → List α
  | _, [] => []
  | pos, x :: xs => place pos x :: inTurn bytes place (pos + (bytes x).length) xs

/-- Ranges that follow each other without a gap from the first offset to the second. -/
def Abut : Nat → Nat → List Span → Prop
  | lo, hi, [] => lo = hi
  | lo, hi, s :: later => s.start = lo ∧ Abut s.stop hi later

section InTurn

variable {α β γ : Type} {bytes : β → List UInt8} {place : Nat → β → α}

theorem abut_inTurn {span : α → Span} (h : ∀ pos x, span (place pos x) = .over pos (bytes x))
    (xs : List β) (pos : Nat) :
    Abut pos (pos + (xs.flatMap bytes).length) ((inTurn bytes place pos xs).map span) := by
  induction xs generalizing pos with
  | nil => rfl
  | cons x xs ih =>
    rw [List.flatMap_cons, List.length_append, ← Nat.add_assoc, inTurn, List.map_cons, h]
    exact ⟨rfl, ih _⟩

theorem map_inTurn {text : List UInt8} {f : α → γ} {g : β → γ} {xs : List β} {pos : Nat}
    (h : ∀ x ∈ xs, ∀ pos, StandsAt text pos (bytes x) → f (place pos x) = g x)
    (hxs : StandsAt text pos (xs.flatMap bytes)) :
    (inTurn bytes place pos xs).map f = xs.map g := by
  induction xs generalizing pos with
  | nil => rfl
  | cons x xs ih =>
    obtain ⟨hx, hlater⟩ := StandsAt.append_iff.1 hxs
    rw [inTurn, List.map_cons, List.map_cons, h x (by simp) pos hx,
      ih (fun y hy => h y (List.mem_cons_of_mem x hy)) hlater]

theorem filterMap_id_cons (o : Option α) (os : List (Option α)) :
    (o :: os).filterMap id = o.toList ++ os.filterMap id := by
  cases o <;> rfl

theorem map_filterMap_of_eq {os : List (Option α)} {xs : List β} {f : α → γ} {g : β → Option γ}
    (h : os.map (Option.map f) = xs.map g) : (os.filterMap id).map f = xs.filterMap g := by
  have hthere := congrArg (List.filterMap id) h
  rw [List.filterMap_map, List.filterMap_map] at hthere
  rw [List.map_filterMap]
  exact hthere

/-- Writings with a byte between each two. -/
def joined (sep : UInt8) (bytes : β → List UInt8) : List β → List UInt8
  | [] => []
  | x :: xs => bytes x ++ xs.flatMap fun y => sep :: bytes y

/-- The values of writings with a byte between each two. -/
def inJoin (sep : UInt8) (bytes : β → List UInt8) (place : Nat → β → α) : Nat → List β → List α
  | _, [] => []
  | pos, x :: xs =>
    place pos x ::
      inTurn (fun y => sep :: bytes y) (fun pos y => place (pos + 1) y) (pos + (bytes x).length) xs

theorem map_inJoin {text : List UInt8} {f : α → γ} {g : β → γ} {sep : UInt8} {xs : List β}
    {pos : Nat} (h : ∀ x ∈ xs, ∀ pos, StandsAt text pos (bytes x) → f (place pos x) = g x)
    (hxs : StandsAt text pos (joined sep bytes xs)) :
    (inJoin sep bytes place pos xs).map f = xs.map g := by
  cases xs with
  | nil => rfl
  | cons x xs =>
    obtain ⟨hx, hlater⟩ := StandsAt.append_iff.1 hxs
    rw [inJoin, List.map_cons, List.map_cons, h x (by simp) pos hx]
    congr 1
    exact map_inTurn
      (fun y hy pos hpos => h y (List.mem_cons_of_mem x hy) (pos + 1) hpos.tail) hlater

theorem forall_mem_joined {p : UInt8 → Prop} {sep : UInt8} {xs : List β} (hsep : p sep)
    (h : ∀ x ∈ xs, ∀ b ∈ bytes x, p b) : ∀ b ∈ joined sep bytes xs, p b := by
  cases xs with
  | nil => simp [joined]
  | cons x xs =>
    intro b hb
    rw [joined, List.mem_append, List.mem_flatMap] at hb
    rcases hb with hb | ⟨y, hy, hb⟩
    · exact h x (by simp) b hb
    · rcases List.mem_cons.1 hb with rfl | hb
      · exact hsep
      · exact h y (List.mem_cons_of_mem x hy) b hb

end InTurn

namespace Reader

variable {α β : Type} {r : Reader α} {bytes : β → List UInt8} {place : Nat → β → α}
  {follows : List UInt8 → Prop} {rest : List UInt8}

/-- Wherever it begins, and whatever follows that may, the writing is read as its value there. -/
def Reads (r : Reader α) (follows : List UInt8 → Prop) (bytes : List UInt8) (place : Nat → α) :
    Prop :=
  ∀ pos rest, follows rest →
    r.read ⟨pos, bytes ++ rest⟩ = some (place pos, ⟨pos + bytes.length, rest⟩)

theorem Reads.mono {before : List UInt8 → Prop} {xs : List UInt8} {f : Nat → α}
    (h : r.Reads follows xs f) (hle : ∀ rest, before rest → follows rest) : r.Reads before xs f :=
  fun pos rest hrest => h pos rest (hle rest hrest)

/-- Writings that may follow each other are read one after the other. -/
theorem Reads.many {xs : List β} (hreads : ∀ x ∈ xs, r.Reads follows (bytes x) (place · x))
    (hnext : ∀ x ∈ xs, ∀ tail, follows (bytes x ++ tail)) (hrest : follows rest)
    (hstop : ∀ pos, r.read ⟨pos, rest⟩ = none) (pos : Nat) :
    r.many ⟨pos, xs.flatMap bytes ++ rest⟩ =
      (inTurn bytes place pos xs, ⟨pos + (xs.flatMap bytes).length, rest⟩) := by
  induction xs generalizing pos with
  | nil => exact many_of_none (hstop pos)
  | cons x xs ih =>
    have htail : follows (xs.flatMap bytes ++ rest) := by
      cases xs with
      | nil => exact hrest
      | cons y ys =>
        rw [List.flatMap_cons, List.append_assoc]
        exact hnext y (by simp) _
    have hlater := ih (fun y hy => hreads y (List.mem_cons_of_mem x hy))
      (fun y hy => hnext y (List.mem_cons_of_mem x hy)) (pos + (bytes x).length)
    rw [List.flatMap_cons, List.append_assoc, many_of_some (hreads x (by simp) pos _ htail), hlater,
      inTurn, List.length_append, Nat.add_assoc]

theorem Reads.optional {o : Option β} (hreads : ∀ x ∈ o, r.Reads follows (bytes x) (place · x))
    (hrest : follows rest) (hstop : ∀ pos, r.read ⟨pos, rest⟩ = none) (pos : Nat) :
    r.optional ⟨pos, o.elim [] bytes ++ rest⟩ =
      (o.map (place pos), ⟨pos + (o.elim [] bytes).length, rest⟩) := by
  cases o with
  | none => simp [Reader.optional, hstop]
  | some x => simp [Reader.optional, hreads x rfl pos rest hrest]

theorem Reads.after {xs : List UInt8} {f : Nat → α} (h : r.Reads follows xs f) (b : UInt8) :
    (r.after b).Reads follows (b :: xs) (fun pos => f (pos + 1)) := by
  intro pos rest hrest
  simp only [Reader.after, List.cons_append, Window.eat?_cons, Option.bind_some, h _ rest hrest,
    List.length_cons, Nat.add_assoc, Nat.add_comm 1]

theorem reads_runAfter {b : UInt8} {p : UInt8 → Bool} {xs : List UInt8}
    (hxs : ∀ c ∈ xs, p c = true) :
    (runAfter b p).Reads (Stops p) (b :: xs) (fun pos => .over (pos + 1) xs) := by
  intro pos rest hrest
  have hread : (runAfter b p).read ⟨pos, b :: xs ++ rest⟩ =
      some (.over (pos + 1) xs, ⟨pos + 1 + xs.length, rest⟩) := by
    simp [runAfter, Window.eat?_cons, Window.run_append hxs hrest]
  rw [hread, List.length_cons, Nat.add_assoc, Nat.add_comm 1]

theorem runAfter_of_stops {b : UInt8} {p q : UInt8 → Bool} {pos : Nat} (hb : q b = true)
    (hrest : Stops q rest) : (runAfter b p).read ⟨pos, rest⟩ = none := by
  simp [runAfter, Window.eat?_of_stops hb hrest]

end Reader

end Http

end Recognition

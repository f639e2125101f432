import Recognition.Http.Byte
import Recognition.Span

namespace Recognition.Http

/-- What is still to be read of a text, up to a bound or a NUL. -/
structure Window where
  /-- Where `rest` begins in the text. -/
  pos : Nat
  rest : List UInt8
deriving DecidableEq, Repr

namespace Window

/-- Bytes that begin at `pos`, up to the first NUL. -/
def cut (pos : Nat) (bytes : List UInt8) : Window := ⟨pos, bytes.takeWhile (· ≠ 0)⟩

def upTo (text : List UInt8) : Option Nat → List UInt8
  | none => text
  | some stop => text.take stop

def of (text : List UInt8) (start : Nat) (stop : Option Nat) : Window :=
  cut start ((upTo text stop).drop start)

def drop (w : Window) (n : Nat) : Window := ⟨w.pos + min n w.rest.length, w.rest.drop n⟩

def spanTo (w v : Window) : Span := ⟨w.pos, v.pos⟩

/-- The bytes of a range that begins here or later. -/
def slice (w : Window) (s : Span) : List UInt8 := (w.rest.drop (s.start - w.pos)).take s.length

def count (p : UInt8 → Bool) (w : Window) : Nat := (w.rest.takeWhile p).length

def skip (p : UInt8 → Bool) (w : Window) : Window := w.drop (w.count p)

def run (p : UInt8 → Bool) (w : Window) : Span × Window := (w.spanTo (w.skip p), w.skip p)

def run? (p : UInt8 → Bool) (w : Window) : Option (Span × Window) :=
  if w.count p = 0 then none else some (w.run p)

def eat? (b : UInt8) (w : Window) : Option Window :=
  if w.rest.head? = some b then some (w.drop 1) else none

/-- Whether a line break comes first: a line feed, perhaps after a carriage return. -/
def isLineBreakAt : List UInt8 → Bool
  | b :: bs => b == Byte.lf || (b == Byte.cr && bs.head? == some Byte.lf)
  | [] => false

/-- Whether a blank comes first, or a line break with a blank after it. -/
def foldsAt : List UInt8 → Bool
  | b :: bs =>
    isBlank b ||
    (b == Byte.lf && bs.head?.any isBlank) ||
    (b == Byte.cr && bs.head? == some Byte.lf && bs.tail.head?.any isBlank)
  | [] => false

/-- How many bytes of linear white space come first: blanks, and line breaks before blanks. -/
def foldCount : List UInt8 → Nat
  | [] => 0
  | b :: bs => if foldsAt (b :: bs) then foldCount bs + 1 else 0

def skipFolds (w : Window) : Window := w.drop (foldCount w.rest)

/-- The window after white space within a line, before a byte of the same line. -/
def skipInLine? (w : Window) : Option Window :=
  let v := w.skip isSpace
  if Byte.lf ∈ w.rest.takeWhile isSpace || v.rest.isEmpty then none else some v

/-- The window after the line that is being read. -/
def skipLine (w : Window) : Window := (w.skip (· != Byte.lf)).drop 1

instance : LE Window := ⟨fun v w => ∃ n, n ≤ w.rest.length ∧ v = w.drop n⟩

instance : LT Window := ⟨fun v w => ∃ n, 0 < n ∧ n ≤ w.rest.length ∧ v = w.drop n⟩

theorem drop_drop (w : Window) (m n : Nat) : (w.drop m).drop n = w.drop (m + n) := by
  simp only [drop, List.length_drop, List.drop_drop, Window.mk.injEq, and_true]
  omega

theorem drop_le (w : Window) (n : Nat) : w.drop n ≤ w :=
  ⟨min n w.rest.length, Nat.min_le_right _ _, by simp [drop, List.drop_eq_drop_iff]⟩

theorem le_refl (w : Window) : w ≤ w := ⟨0, Nat.zero_le _, by simp [drop]⟩

theorem le_of_lt {v w : Window} (h : v < w) : v ≤ w := by
  obtain ⟨n, _, hn⟩ := h
  exact ⟨n, hn⟩

theorem le_trans {u v w : Window} (huv : u ≤ v) (hvw : v ≤ w) : u ≤ w := by
  obtain ⟨m, hm, rfl⟩ := huv
  obtain ⟨n, hn, rfl⟩ := hvw
  rw [drop_drop]
  exact drop_le w _

theorem lt_of_lt_of_le {u v w : Window} (huv : u < v) (hvw : v ≤ w) : u < w := by
  obtain ⟨m, hpos, hm, rfl⟩ := huv
  obtain ⟨n, hn, rfl⟩ := hvw
  simp only [drop, List.length_drop] at hm
  exact ⟨n + m, by omega, by omega, drop_drop w n m⟩

theorem lt_of_le_of_lt {u v w : Window} (huv : u ≤ v) (hvw : v < w) : u < w := by
  obtain ⟨m, hm, rfl⟩ := huv
  obtain ⟨n, hpos, hn, rfl⟩ := hvw
  simp only [drop, List.length_drop] at hm
  exact ⟨n + m, by omega, by omega, drop_drop w n m⟩

theorem length_le {v w : Window} (h : v ≤ w) : v.rest.length ≤ w.rest.length := by
  obtain ⟨n, _, rfl⟩ := h
  simp [drop]

theorem length_lt {v w : Window} (h : v < w) : v.rest.length < w.rest.length := by
  obtain ⟨n, hpos, hn, rfl⟩ := h
  simp only [drop, List.length_drop]
  omega

/-- Windows of one text end at one place. -/
theorem pos_add_length {v w : Window} (h : v ≤ w) :
    v.pos + v.rest.length = w.pos + w.rest.length := by
  obtain ⟨n, hn, rfl⟩ := h
  simp only [drop, List.length_drop]
  omega

theorem pos_lt {v w : Window} (h : v < w) : w.pos < v.pos := by
  have := length_lt h
  have := pos_add_length (le_of_lt h)
  omega

theorem lt_of_le_of_pos_ne {v w : Window} (h : v ≤ w) (hne : v.pos ≠ w.pos) : v < w := by
  obtain ⟨n, hn, rfl⟩ := h
  refine ⟨n, Nat.pos_of_ne_zero fun h0 => hne ?_, hn, rfl⟩
  simp [h0, drop]

theorem skip_le (p : UInt8 → Bool) (w : Window) : w.skip p ≤ w := drop_le w _

theorem skipFolds_le (w : Window) : w.skipFolds ≤ w := drop_le w _

theorem skipLine_le (w : Window) : w.skipLine ≤ w := le_trans (drop_le _ _) (skip_le _ _)

theorem skipInLine?_le {v w : Window} (h : w.skipInLine? = some v) : v ≤ w := by
  simp only [skipInLine?] at h
  split at h
  · simp at h
  · exact Option.some.inj h ▸ skip_le _ _

theorem count_le (p : UInt8 → Bool) (w : Window) : w.count p ≤ w.rest.length :=
  (List.takeWhile_sublist p).length_le

theorem run?_lt {p : UInt8 → Bool} {w v : Window} {s : Span} (h : w.run? p = some (s, v)) :
    v < w := by
  rw [run?] at h
  split at h
  · simp at h
  · obtain ⟨_, rfl⟩ := Prod.mk.inj (Option.some.inj h)
    exact ⟨w.count p, Nat.pos_of_ne_zero ‹_›, count_le p w, rfl⟩

theorem eat?_lt {b : UInt8} {w v : Window} (h : w.eat? b = some v) : v < w := by
  rw [eat?] at h
  split at h
  · rename_i hb
    obtain rfl := Option.some.inj h
    refine ⟨1, Nat.one_pos, ?_, rfl⟩
    cases hr : w.rest with
    | nil => simp [hr] at hb
    | cons => simp
  · simp at h

end Window

end Recognition.Http

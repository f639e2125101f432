import Recognition.Proofs.Http.Window

namespace Recognition.Http

/-- What goes wrong on a buffer. -/
inductive Breach where
  | index (pos : Nat)
  | range (s : Span)
  /-- More was taken from a number than it is. -/
  | difference (a b : Nat)
  /-- A round of a loop ended where it began. -/
  | stall (pos : Nat)
deriving DecidableEq, Repr

abbrev Checked := Except Breach

namespace Checked

def byteAt (text : List UInt8) (pos : Nat) : Checked UInt8 :=
  match text[pos]? with
  | some b => .ok b
  | none => .error (.index pos)

def slice (text : List UInt8) (s : Span) : Checked (List UInt8) :=
  if s.start ≤ s.stop ∧ s.stop ≤ text.length then .ok ((text.take s.stop).drop s.start)
  else .error (.range s)

def difference (a b : Nat) : Checked Nat :=
  if b ≤ a then .ok (a - b) else .error (.difference a b)

theorem ok_bind {α β : Type} (a : α) (f : α → Checked β) : (Except.ok a : Checked α) >>= f = f a :=
  rfl

theorem byteAt_eq_ok {text : List UInt8} {pos : Nat} {b : UInt8} (h : text[pos]? = some b) :
    byteAt text pos = .ok b := by
  rw [byteAt, h]

end Checked

/-- An offset into a text, and the offset at which reading ends. -/
structure Cursor where
  text : List UInt8
  pos : Nat
  stop : Nat
  stop_le : stop ≤ text.length

namespace Cursor

def of (text : List UInt8) (start : Nat) (stop : Option Nat) : Cursor :=
  ⟨text, start, min (stop.getD text.length) text.length, Nat.min_le_right _ _⟩

def moveTo (c : Cursor) (pos : Nat) : Cursor := { c with pos }

/-- What is still to be read. -/
def window (c : Cursor) : Window := .of c.text c.pos (some c.stop)

/-- All bytes up to the bound, after a NUL as well. -/
def bytes (c : Cursor) : List UInt8 := (c.text.take c.stop).drop c.pos

/-- The byte `k` offsets on, unless that is a NUL or not to be read. -/
def peekAt (c : Cursor) (k : Nat) : Checked (Option UInt8) :=
  if c.pos + k < c.stop then
    (Checked.byteAt c.text (c.pos + k)).map fun b => if b = 0 then none else some b
  else .ok none

variable {c : Cursor} {v : Window} {k : Nat}

@[simp] theorem moveTo_pos (c : Cursor) (pos : Nat) : (c.moveTo pos).pos = pos := rfl

@[simp] theorem moveTo_stop (c : Cursor) (pos : Nat) : (c.moveTo pos).stop = c.stop := rfl

@[simp] theorem moveTo_text (c : Cursor) (pos : Nat) : (c.moveTo pos).text = c.text := rfl

@[simp] theorem moveTo_moveTo (c : Cursor) (p q : Nat) : (c.moveTo p).moveTo q = c.moveTo q := rfl

@[simp] theorem moveTo_self (c : Cursor) : c.moveTo c.pos = c := rfl

@[simp] theorem window_pos (c : Cursor) : c.window.pos = c.pos := rfl

theorem window_eq_cut (c : Cursor) : c.window = .cut c.pos c.bytes := rfl

theorem length_bytes (c : Cursor) : c.bytes.length = c.stop - c.pos := by
  rw [bytes, List.length_drop, List.length_take, Nat.min_eq_left c.stop_le]

theorem bytes_of (text : List UInt8) (start : Nat) (stop : Option Nat) :
    (of text start stop).bytes = (Window.upTo text stop).drop start := by
  show (text.take (min (stop.getD text.length) text.length)).drop start = _
  rw [← List.take_eq_take_min]
  cases stop with
  | none => rw [Option.getD_none, List.take_length, Window.upTo]
  | some e => rfl

theorem window_of (text : List UInt8) (start : Nat) (stop : Option Nat) :
    (of text start stop).window = .of text start stop := by
  rw [window_eq_cut, bytes_of]
  rfl

theorem bytes_moveTo {pos : Nat} (h : c.pos ≤ pos) :
    (c.moveTo pos).bytes = c.bytes.drop (pos - c.pos) := by
  rw [bytes, bytes, List.drop_drop, Nat.add_sub_of_le h]
  rfl

theorem slice_take {n : Nat} (h : c.pos + n ≤ c.stop) :
    Checked.slice c.text ⟨c.pos, c.pos + n⟩ = .ok (c.bytes.take n) := by
  rw [Checked.slice, if_pos ⟨Nat.le_add_right _ _, Nat.le_trans h c.stop_le⟩, bytes, List.take_drop,
    List.take_take, Nat.min_eq_left h]

theorem slice_bytes {pos : Nat} (h : pos ≤ c.stop) :
    Checked.slice c.text ⟨pos, c.stop⟩ = .ok (c.moveTo pos).bytes :=
  if_pos ⟨h, c.stop_le⟩

theorem window_moveTo (h : v ≤ c.window) : (c.moveTo v.pos).window = v :=
  (Window.eq_of_le h).symm

theorem pos_add_length_le (h : v ≤ c.window) (hne : v.rest ≠ []) :
    v.pos + v.rest.length ≤ c.stop := by
  have hsum := Window.pos_add_length h
  have hlength : c.window.rest.length ≤ c.bytes.length := (List.takeWhile_sublist _).length_le
  have hpos := List.length_pos_iff.2 hne
  have hle := Window.length_le h
  rw [length_bytes] at hlength
  rw [hsum, window_pos]
  omega

theorem peekAt_zero (c : Cursor) : c.peekAt 0 = .ok c.window.rest.head? := by
  have hrest : c.window.rest.head? = c.bytes.head?.filter (· ≠ 0) := by
    rw [window_eq_cut, Window.cut, List.head?_takeWhile]
  rw [hrest, bytes, List.head?_drop, List.getElem?_take, peekAt, Nat.add_zero]
  split
  · rename_i hlt
    have hlength : c.pos < c.text.length := Nat.lt_of_lt_of_le hlt c.stop_le
    rw [Checked.byteAt, List.getElem?_eq_getElem hlength]
    by_cases hb : c.text[c.pos] = 0 <;> simp [Except.map, Option.filter, hb]
  · rfl

theorem peekAt_eq (h : k ≤ c.window.rest.length) : c.peekAt k = .ok c.window.rest[k]? := by
  have hpos : (c.window.drop k).pos = c.pos + k := by
    rw [Window.drop, Nat.min_eq_left h, window_pos]
  have hmove : c.peekAt k = (c.moveTo (c.window.drop k).pos).peekAt 0 := by
    rw [peekAt, peekAt, hpos]
    rfl
  rw [hmove, peekAt_zero, window_moveTo (Window.drop_le _ _), Window.drop, List.head?_drop]

theorem slice_eq {s : Span} (hne : c.window.rest ≠ []) (hle : s.start ≤ s.stop)
    (hstart : c.pos ≤ s.start) (hstop : s.stop ≤ c.pos + c.window.rest.length) :
    Checked.slice c.text s = .ok (c.window.slice s) := by
  have hend := pos_add_length_le (Window.le_refl c.window) hne
  have hrest : c.window.rest = Window.bytesOf c.text c.pos (some c.stop) := by
    rw [window, Window.of_eq]
  have hlength := Window.length_bytesOf c.text c.pos (some c.stop)
  have hpos := List.length_pos_iff.2 hne
  have hstopLe := c.stop_le
  rw [← hrest] at hlength
  rw [window_pos] at hend
  have hdrop : c.pos + (s.start - c.pos) = s.start := by omega
  have htake : min (s.start + s.length) (Window.endOf c.text c.pos (some c.stop)) = s.stop := by
    rw [Span.length]
    omega
  rw [Checked.slice, if_pos ⟨hle, by omega⟩, Window.slice, hrest, Window.bytesOf, List.drop_drop,
    window_pos, hdrop, List.take_drop, List.take_take, htake]

theorem slice_run (hne : c.window.rest ≠ []) (hv : v ≤ c.window) (p : UInt8 → Bool) :
    Checked.slice c.text (v.run p).1 = .ok (v.rest.takeWhile p) := by
  obtain ⟨n, hn, rfl⟩ := hv
  have hcount := Window.count_le p (c.window.drop n)
  have hlength : (c.window.drop n).rest.length = c.window.rest.length - n := List.length_drop
  have hpos : (c.window.drop n).pos = c.pos + n := by
    rw [Window.drop, Nat.min_eq_left hn, window_pos]
  have hrun : ((c.window.drop n).run p).1 = ⟨c.pos + n, c.pos + n + (c.window.drop n).count p⟩ := by
    rw [Window.run, Window.spanTo, Window.skip_pos, hpos]
  have hslice : c.window.slice ⟨c.pos + n, c.pos + n + (c.window.drop n).count p⟩ =
      (c.window.drop n).rest.takeWhile p := by
    rw [Window.slice, window_pos, Nat.add_sub_cancel_left, Span.length, Nat.add_sub_cancel_left]
    exact Window.take_count p (c.window.drop n)
  rw [hrun, ← hslice]
  exact slice_eq hne (Nat.le_add_right _ _) (Nat.le_add_right _ _) (by dsimp only; omega)

end Cursor

end Recognition.Http

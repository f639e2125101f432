import Recognition.Http.Window

namespace Recognition.Http

/-- Takes something off the front of a window or fails, so that reading on comes to an end. -/
structure Reader (α : Type) where
  read : Window → Option (α × Window)
  lt : ∀ {w v : Window} {a : α}, read w = some (a, v) → v < w

namespace Reader

variable {α : Type}

def many (r : Reader α) (w : Window) : List α × Window :=
  match _h : r.read w with
  | none => ([], w)
  | some (a, v) =>
    let rest := r.many v
    (a :: rest.1, rest.2)
termination_by w.rest.length
decreasing_by exact Window.length_lt (r.lt _h)

theorem many_of_none {r : Reader α} {w : Window} (h : r.read w = none) : r.many w = ([], w) := by
  rw [many]
  split
  · rfl
  · simp_all

theorem many_of_some {r : Reader α} {w v : Window} {a : α} (h : r.read w = some (a, v)) :
    r.many w = (a :: (r.many v).1, (r.many v).2) := by
  rw [many]
  split
  · simp_all
  · rename_i heq
    rw [h] at heq
    obtain ⟨rfl, rfl⟩ := Prod.mk.inj (Option.some.inj heq)
    rfl

theorem many_le (r : Reader α) (w : Window) : (r.many w).2 ≤ w := by
  fun_induction r.many w with
  | case1 w h => exact Window.le_refl w
  | case2 w a v h rest ih => exact Window.le_trans ih (Window.le_of_lt (r.lt h))

/-- Reads after a byte, with linear white space on both sides of it. -/
def afterFolded (b : UInt8) (r : Reader α) : Reader α where
  read w := (w.skipFolds.eat? b).bind fun v => r.read v.skipFolds
  lt h := by
    obtain ⟨v, hv, h⟩ := Option.bind_eq_some_iff.1 h
    have hvw := Window.lt_of_lt_of_le (Window.eat?_lt hv) (Window.skipFolds_le _)
    exact Window.lt_of_lt_of_le (r.lt h)
      (Window.le_trans (Window.skipFolds_le _) (Window.le_of_lt hvw))

def after (b : UInt8) (r : Reader α) : Reader α where
  read w := (w.eat? b).bind r.read
  lt h := by
    obtain ⟨v, hv, h⟩ := Option.bind_eq_some_iff.1 h
    exact Window.lt_of_lt_of_le (r.lt h) (Window.le_of_lt (Window.eat?_lt hv))

def run (p : UInt8 → Bool) : Reader Span where
  read w := w.run? p
  lt := Window.run?_lt

/-- A byte, and the run of a class after it, perhaps empty. -/
def runAfter (b : UInt8) (p : UInt8 → Bool) : Reader Span where
  read w := (w.eat? b).map fun v => v.run p
  lt h := by
    obtain ⟨v, hv, h⟩ := Option.map_eq_some_iff.1 h
    obtain ⟨_, rfl⟩ := Prod.mk.inj h
    exact Window.lt_of_le_of_lt (Window.skip_le _ _) (Window.eat?_lt hv)

def optional (r : Reader α) (w : Window) : Option α × Window :=
  match r.read w with
  | none => (none, w)
  | some (a, v) => (some a, v)

theorem optional_le (r : Reader α) (w : Window) : (r.optional w).2 ≤ w := by
  rw [optional]
  split
  · exact Window.le_refl w
  · exact Window.le_of_lt (r.lt ‹_›)

end Reader

end Recognition.Http

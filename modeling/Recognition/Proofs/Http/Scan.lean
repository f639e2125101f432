import Recognition.Proofs.Http.Cursor

namespace Recognition.Http

/-- From a cursor on, a value and the offset after it, or nothing. -/
def Scan (α : Type) : Type := Cursor → Checked (Option (α × Nat))

namespace Scan

variable {α β σ : Type}

instance : Monad Scan where
  pure a c := .ok (some (a, c.pos))
  bind m f c :=
    match m c with
    | .ok (some (a, pos)) => f a (c.moveTo pos)
    | .ok none => .ok none
    | .error e => .error e

def fail : Scan α := fun _ => .ok none

def require (holds : Bool) : Scan Unit := if holds then pure () else fail

def here : Scan Nat := fun c => .ok (some (c.pos, c.pos))

def peekAt (k : Nat) : Scan (Option UInt8) := fun c => (c.peekAt k).map fun b => some (b, c.pos)

def advance (n : Nat) : Scan Unit := fun c => .ok (some ((), c.pos + n))

def lift (x : Checked α) : Scan α := fun c => x.map fun a => some (a, c.pos)

def slice (s : Span) : Scan (List UInt8) := fun c => lift (Checked.slice c.text s) c

def result (m : Scan α) (c : Cursor) : Checked (Option α) := (m c).map (Option.map Prod.fst)

/-- The first scan and what it leads to, or else the other one from the same place. -/
def ifFound (m : Scan α) (f : α → Scan β) (other : Scan β) : Scan β := fun c =>
  match m c with
  | .ok (some (a, pos)) => f a (c.moveTo pos)
  | .ok none => other c
  | .error e => .error e

/-- Reading goes on where the range of the value ends, wherever the scan for it ended. -/
def call (m : Scan α) (span : α → Span) : Scan α := fun c =>
  (m c).map (Option.map fun (a, _) => (a, (span a).stop))

def peek : Scan UInt8 := do
  match ← peekAt 0 with
  | some b => return b
  | none => fail

def accept (p : UInt8 → Bool) : Scan Unit := do
  if p (← peek) then advance 1 else fail

def eat (b : UInt8) : Scan Unit := accept (· == b)

def next : Scan Unit := accept fun _ => true

/-- Rounds that pass on a state, up to the one that ends the loop. All others have to move on. -/
def loop (body : σ → Scan (β ⊕ σ)) (s : σ) : Scan β := fun c =>
  match body s c with
  | .ok (some (.inl b, pos)) => .ok (some (b, pos))
  | .ok (some (.inr t, pos)) =>
    if c.pos < pos ∧ c.pos < c.stop then loop body t (c.moveTo pos) else .error (.stall c.pos)
  | .ok none => .ok none
  | .error e => .error e
termination_by c => c.stop - c.pos
decreasing_by
  simp only [Cursor.moveTo_stop, Cursor.moveTo_pos]
  omega

theorem loop_of_done {body : σ → Scan (β ⊕ σ)} {s : σ} {b : β} {pos : Nat} {c : Cursor}
    (h : body s c = .ok (some (.inl b, pos))) : loop body s c = .ok (some (b, pos)) := by
  rw [loop, h]

theorem loop_of_round {body : σ → Scan (β ⊕ σ)} {s t : σ} {pos : Nat} {c : Cursor}
    (h : body s c = .ok (some (.inr t, pos))) (hpos : c.pos < pos) (hstop : c.pos < c.stop) :
    loop body s c = loop body t (c.moveTo pos) := by
  rw [loop, h]
  exact if_pos ⟨hpos, hstop⟩

def many (m : Scan α) : Scan (List α) :=
  loop (fun as => ifFound m (fun a => pure (.inr (as ++ [a]))) (pure (.inl as))) []

def exhaust (m : Scan Unit) : Scan Unit :=
  loop (fun _ => ifFound m (fun _ => pure (.inr ())) (pure (.inl ()))) ()

def skipWhile (p : UInt8 → Bool) : Scan Span := do
  let start ← here
  exhaust (accept p)
  return ⟨start, ← here⟩

def takeWhile (p : UInt8 → Bool) : Scan Span := do
  let s ← skipWhile p
  require (!s.isEmpty)
  return s

/-- From this cursor on, the scan yields what a reading of the window yields, if anything, and ends
where that does. -/
structure FollowsAt (c : Cursor) (m : Scan α) (x : Option (α × Window)) : Prop where
  run : m c = .ok (x.map fun (a, v) => (a, v.pos))
  le : ∀ {a v}, x = some (a, v) → v ≤ c.window

/-- Nothing goes wrong in the scan, and it does what the reading does. -/
def Follows (m : Scan α) (g : Window → Option (α × Window)) : Prop :=
  ∀ c, FollowsAt c m (g c.window)

variable {c : Cursor} {m : Scan α} {f : α → Scan β}

namespace FollowsAt

variable {x : Option (α × Window)}

theorem of_le {a : α} {v : Window} (h : m c = .ok (some (a, v.pos))) (hle : v ≤ c.window) :
    FollowsAt c m (some (a, v)) := by
  refine ⟨h, fun heq => ?_⟩
  obtain ⟨_, rfl⟩ := Prod.mk.inj (Option.some.inj heq)
  exact hle

theorem of_none (h : m c = .ok none) : FollowsAt c m none := ⟨h, by simp⟩

theorem congr {x' : Option (α × Window)} (h : FollowsAt c m x) (heq : x = x') : FollowsAt c m x' :=
  heq ▸ h

theorem bind {y : α → Window → Option (β × Window)} (h : FollowsAt c m x)
    (hf : ∀ a v, x = some (a, v) → FollowsAt (c.moveTo v.pos) (f a) (y a v)) :
    FollowsAt c (m >>= f) (x.bind fun (a, v) => y a v) := by
  have hrun := h.run
  cases x with
  | none => exact of_none (by simp [Bind.bind, hrun])
  | some av =>
    obtain ⟨a, v⟩ := av
    have hfollows := hf a v rfl
    refine ⟨?_, fun hy => ?_⟩
    · simpa [Bind.bind, hrun] using hfollows.run
    · have hle := hfollows.le hy
      rw [Cursor.window_moveTo (h.le rfl)] at hle
      exact Window.le_trans hle (h.le rfl)

theorem ifFound {y : α → Window → Option (β × Window)} {z : Option (β × Window)} {other : Scan β}
    (h : FollowsAt c m x)
    (hf : ∀ a v, x = some (a, v) → FollowsAt (c.moveTo v.pos) (f a) (y a v))
    (hother : x = none → FollowsAt c other z) :
    FollowsAt c (m.ifFound f other) (x.elim z fun (a, v) => y a v) := by
  have hrun := h.run
  cases x with
  | none =>
    refine ⟨?_, (hother rfl).le⟩
    simpa [Scan.ifFound, hrun] using (hother rfl).run
  | some av =>
    obtain ⟨a, v⟩ := av
    have hbind := bind h hf
    refine ⟨?_, hbind.le⟩
    simpa [Scan.ifFound, Bind.bind, hrun] using hbind.run

end FollowsAt

theorem follows_pure (a : α) : Follows (pure a) fun w => some (a, w) :=
  fun _ => .of_le rfl (Window.le_refl _)

theorem follows_here : Follows here fun w => some (w.pos, w) :=
  fun _ => .of_le rfl (Window.le_refl _)

theorem follows_fail : Follows (fail : Scan α) fun _ => none := fun _ => .of_none rfl

theorem follows_peek : Follows peek fun w => w.rest.head?.map fun b => (b, w) := by
  intro c
  have hpeek := Cursor.peekAt_zero c
  show FollowsAt c peek (c.window.rest.head?.map fun b => (b, c.window))
  cases hhead : c.window.rest.head? with
  | none => exact .of_none (by simp [peek, peekAt, Bind.bind, hpeek, hhead, Except.map, fail])
  | some b =>
    refine .of_le ?_ (Window.le_refl _)
    simp [peek, peekAt, Bind.bind, Pure.pure, hpeek, hhead, Except.map]

theorem followsAt_advance {n : Nat} (h : n ≤ c.window.rest.length) :
    FollowsAt c (advance n) (some ((), c.window.drop n)) := by
  have hpos : (c.window.drop n).pos = c.pos + n := by
    rw [Window.drop, Nat.min_eq_left h, Cursor.window_pos]
  exact .of_le (by rw [hpos]; rfl) (Window.drop_le _ n)

theorem follows_require (holds : Bool) :
    Follows (require holds) fun w => if holds then some ((), w) else none := by
  cases holds with
  | false => exact fun _ => .of_none rfl
  | true => exact follows_pure ()

namespace Follows

variable {g : Window → Option (α × Window)}

theorem congr {g' : Window → Option (α × Window)} (h : Follows m g) (heq : ∀ w, g w = g' w) :
    Follows m g' :=
  fun c => (h c).congr (heq c.window)

theorem followsAt (h : Follows m g) {v : Window} (hv : v ≤ c.window) :
    FollowsAt (c.moveTo v.pos) m (g v) := by
  have hfollows := h (c.moveTo v.pos)
  rwa [Cursor.window_moveTo hv] at hfollows

theorem bind {g' : α → Window → Option (β × Window)} (h : Follows m g)
    (hf : ∀ a, Follows (f a) (g' a)) :
    Follows (m >>= f) fun w => (g w).bind fun (a, v) => g' a v :=
  fun c => (h c).bind fun a _ hav => (hf a).followsAt ((h c).le hav)

theorem ifFound {g' : α → Window → Option (β × Window)} {g'' : Window → Option (β × Window)}
    {other : Scan β} (h : Follows m g) (hf : ∀ a, Follows (f a) (g' a))
    (hother : Follows other g'') :
    Follows (m.ifFound f other) fun w => (g w).elim (g'' w) fun (a, v) => g' a v :=
  fun c => (h c).ifFound (fun a _ hav => (hf a).followsAt ((h c).le hav)) fun _ => hother c

theorem ite {m' : Scan α} {g' : Window → Option (α × Window)} (holds : Bool) (h : Follows m g)
    (h' : Follows m' g') :
    Follows (if holds then m else m') fun w => if holds then g w else g' w := by
  cases holds with
  | false => exact h'
  | true => exact h

theorem call {r : Reader α} {span : α → Span} (h : Follows m r.read)
    (hspan : ∀ {w v a}, r.read w = some (a, v) → (span a).stop = v.pos) :
    Follows (m.call span) r.read := by
  refine fun c => ⟨?_, (h c).le⟩
  have hrun := (h c).run
  cases hread : r.read c.window with
  | none => simp [Scan.call, hrun, hread, Except.map]
  | some av => simp [Scan.call, hrun, hread, Except.map, hspan hread]

/-- One round of a loop: it ends, or another one begins further on. -/
def Round (step : Option ((β ⊕ σ) × Window)) (w : Window) (x : Option (β × Window))
    (next : σ → Window → Option (β × Window)) : Prop :=
  match step with
  | none => x = none
  | some (.inl b, v) => x = some (b, v)
  | some (.inr t, v) => v < w ∧ x = next t v

/-- A loop does what is left to do if every round takes its part of that and moves on. -/
theorem loop {body : σ → Scan (β ⊕ σ)} {step : σ → Window → Option ((β ⊕ σ) × Window)}
    {g : σ → Window → Option (β × Window)} (h : ∀ s, Follows (body s) (step s))
    (hround : ∀ s w, Round (step s w) w (g s w) g) (s : σ) : Follows (Scan.loop body s) (g s) := by
  intro c
  -- Every round leaves less of the window.
  induction hn : c.window.rest.length using Nat.strong_induction_on generalizing s c with
  | h n ih =>
    have hrun := (h s c).run
    have hstep := hround s c.window
    cases hs : step s c.window with
    | none =>
      rw [hs] at hrun hstep
      refine hstep ▸ .of_none ?_
      rw [Scan.loop, hrun]
      rfl
    | some x =>
      obtain ⟨b | t, v⟩ := x
      · rw [hs] at hrun hstep
        exact hstep ▸ .of_le (loop_of_done hrun) ((h s c).le hs)
      · rw [hs] at hrun hstep
        obtain ⟨hlt, hnext⟩ := hstep
        have hpos : c.pos < v.pos := Window.pos_lt hlt
        have hne : c.window.rest ≠ [] := by
          rintro hnil
          simpa [hnil] using Window.length_lt hlt
        have hend := Cursor.pos_add_length_le (Window.le_refl c.window) hne
        have hstop : c.pos < c.stop := by
          have := List.length_pos_iff.2 hne
          rw [Cursor.window_pos] at hend
          omega
        have hwindow := Cursor.window_moveTo (Window.le_of_lt hlt)
        have hlater := ih v.rest.length (hn ▸ Window.length_lt hlt) t (c := c.moveTo v.pos)
          (by rw [hwindow])
        rw [hwindow, ← hnext] at hlater
        refine ⟨?_, fun hx => ?_⟩
        · rw [loop_of_round hrun hpos hstop]
          exact hlater.run
        · have hwv := hlater.le hx
          rw [hwindow] at hwv
          exact Window.le_trans hwv (Window.le_of_lt hlt)

theorem many {r : Reader α} (h : Follows m r.read) :
    Follows (Scan.many m) fun w => some (r.many w) := by
  refine (loop (g := fun as w => some (as ++ (r.many w).1, (r.many w).2)) (fun as =>
    h.ifFound (fun a => follows_pure (.inr (as ++ [a]))) (follows_pure (.inl as))) ?_ []).congr ?_
  · intro as w
    cases hread : r.read w with
    | none => simp [Round, Reader.many_of_none hread]
    | some av => exact ⟨r.lt hread, by simp [Reader.many_of_some hread]⟩
  · exact fun w => rfl

theorem exhaust {m : Scan Unit} {next : Window → Option (Unit × Window)} {g : Window → Window}
    (h : Follows m next) (hstop : ∀ w, next w = none → g w = w)
    (hnext : ∀ w v, next w = some ((), v) → v < w ∧ g w = g v) :
    Follows (Scan.exhaust m) fun w => some ((), g w) := by
  refine loop (g := fun _ w => some ((), g w)) (fun _ =>
    h.ifFound (fun _ => follows_pure (.inr ())) (follows_pure (.inl ()))) ?_ ()
  intro _ w
  cases hread : next w with
  | none => simp [Round, hstop w hread]
  | some av =>
    obtain ⟨hlt, heq⟩ := hnext w av.2 hread
    exact ⟨hlt, by rw [heq]⟩

end Follows

theorem follows_accept (p : UInt8 → Bool) :
    Follows (accept p) fun w => if w.rest.head?.any p then some ((), w.drop 1) else none := by
  intro c
  have hrun := (follows_peek c).run
  show FollowsAt c (accept p)
    (if c.window.rest.head?.any p then some ((), c.window.drop 1) else none)
  cases hrest : c.window.rest with
  | nil => exact .of_none (by simp [accept, Bind.bind, hrun, hrest])
  | cons b bs =>
    have hadvance := followsAt_advance (n := 1) (c := c) (by simp [hrest])
    rw [List.head?_cons, Option.any_some]
    by_cases hb : p b
    · rw [if_pos hb]
      refine ⟨?_, hadvance.le⟩
      simpa [accept, Bind.bind, hrun, hrest, hb] using hadvance.run
    · rw [if_neg hb]
      exact .of_none (by simp [accept, Bind.bind, hrun, hrest, hb, fail])

theorem any_beq_iff {o : Option UInt8} {b : UInt8} : o.any (· == b) = true ↔ o = some b := by
  cases o <;> simp

theorem follows_eat (b : UInt8) :
    Follows (eat b) fun w => (w.eat? b).map fun v => ((), v) := by
  refine (follows_accept (· == b)).congr fun w => ?_
  simp only [any_beq_iff, Window.eat?]
  split <;> rfl

theorem follows_skip (p : UInt8 → Bool) :
    Follows (exhaust (accept p)) fun w => some ((), w.skip p) := by
  refine (follows_accept p).exhaust (fun w hnone => ?_) fun w v hsome => ?_
  · split at hnone
    · cases hnone
    · exact Window.skip_of_not_any (by simpa using ‹¬ w.rest.head?.any p = true›)
  · split at hsome
    · obtain rfl : w.drop 1 = v := by simpa using hsome
      exact Window.skip_of_any ‹_›
    · cases hsome

theorem follows_skipWhile (p : UInt8 → Bool) : Follows (skipWhile p) fun w => some (w.run p) :=
  follows_here.bind fun _ => (follows_skip p).bind fun _ => follows_here.bind fun _ =>
    follows_pure _

theorem run_isEmpty (p : UInt8 → Bool) (w : Window) :
    (w.run p).1.isEmpty = (w.rest.takeWhile p).isEmpty := by
  rw [Window.run, Window.spanTo, Span.isEmpty, Window.skip_pos, Window.count]
  cases w.rest.takeWhile p <;> simp

theorem follows_takeWhile (p : UInt8 → Bool) : Follows (takeWhile p) fun w => w.run? p := by
  refine ((follows_skipWhile p).bind fun s => (follows_require _).bind
    fun _ => follows_pure s).congr fun w => ?_
  have hempty := run_isEmpty p w
  rw [Window.run?, Option.bind_some, Window.count]
  generalize w.run p = read at hempty
  obtain ⟨s, v⟩ := read
  cases htake : w.rest.takeWhile p <;> simp [hempty, htake]

end Scan

end Recognition.Http

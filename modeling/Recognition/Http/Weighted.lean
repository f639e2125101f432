import Recognition.Http.Token
import Recognition.Http.Weight

namespace Recognition.Http

/-- A value, or `*` for any, with its weight and its other parameters. -/
structure Weighted (α : Type) where
  span : Span
  value : Option α
  weight : Weight
  params : List Parameter
deriving DecidableEq, Repr

namespace Weighted

variable {α : Type}

def semicolon? (w : Window) : Option Window :=
  ((w.skip isSpace).eat? Byte.semicolon).map (Window.skip isSpace)

def weightName? (w : Window) : Option Window := do
  let v ← (w.eat? 0x71).or (w.eat? 0x51)
  let u ← (v.skip isSpace).eat? Byte.equals
  return u.skip isSpace

def endsWeight (w : Window) : Bool :=
  w.rest.head?.all fun b => b == Byte.semicolon || b == Byte.comma || isSpace b

theorem semicolon?_lt {w v : Window} (h : semicolon? w = some v) : v < w := by
  obtain ⟨u, hu, rfl⟩ := Option.map_eq_some_iff.1 h
  exact Window.lt_of_le_of_lt (Window.skip_le _ u)
    (Window.lt_of_lt_of_le (Window.eat?_lt hu) (Window.skip_le _ w))

theorem weightName?_le {w v : Window} (h : weightName? w = some v) : v ≤ w := by
  simp only [weightName?, Option.bind_eq_bind, Option.bind_eq_some_iff, Option.pure_def,
    Option.some.injEq] at h
  obtain ⟨u, hu, x, hx, rfl⟩ := h
  have huw : u < w := by
    rcases Option.or_eq_some_iff.1 hu with hu | ⟨_, hu⟩ <;> exact Window.eat?_lt hu
  exact Window.le_trans (Window.skip_le _ x) (Window.le_trans (Window.le_of_lt (Window.eat?_lt hx))
    (Window.le_trans (Window.skip_le _ u) (Window.le_of_lt huw)))

/-- The weight and the parameters after a value, given the weight so far, and the window after them.
The last weight counts. A weight that cannot be read is an error, told by where it stands. -/
def attributes (sofar : Weight) (w : Window) :
    Except Window (Weight × List Parameter × Window) :=
  match _hv : semicolon? w with
  | none => .ok (sofar, [], w)
  | some v =>
    match _hq : weightName? v with
    | some q =>
      match _hu : Http.weight.read q with
      | some (found, u) => if endsWeight u then attributes found u else .error q
      | none => .error q
    | none =>
      match _hp : parameter.read v with
      | some (p, u) => (attributes sofar u).map fun (found, ps, x) => (found, p :: ps, x)
      | none => .ok (sofar, [], w)
termination_by w.rest.length
decreasing_by
  · exact Window.length_lt (Window.lt_of_lt_of_le (Http.weight.lt _hu)
      (Window.le_trans (weightName?_le _hq) (Window.le_of_lt (semicolon?_lt _hv))))
  · exact Window.length_lt (Window.lt_of_lt_of_le (parameter.lt _hp)
      (Window.le_of_lt (semicolon?_lt _hv)))

def valueOrAny (r : Reader α) : Reader (Option α) where
  read w :=
    match r.read w with
    | some (a, v) => some (some a, v)
    | none => (w.eat? Byte.asterisk).map fun v => (none, v)
  lt h := by
    split at h
    · obtain ⟨_, rfl⟩ := Prod.mk.inj (Option.some.inj h)
      exact r.lt ‹_›
    · obtain ⟨v, hv, h⟩ := Option.map_eq_some_iff.1 h
      obtain ⟨_, rfl⟩ := Prod.mk.inj h
      exact Window.eat?_lt hv

/-- An item, or where its weight stands if that cannot be read. -/
def item? (r : Reader α) (w : Window) : Option (Except Window (Weighted α × Window)) :=
  ((valueOrAny r).read w).map fun (value, v) =>
    (attributes .one v).map fun (weight, params, u) => (⟨w.spanTo u, value, weight, params⟩, u)

theorem attributes_le (sofar : Weight) (w : Window) :
    (∀ x, attributes sofar w = .ok x → x.2.2 ≤ w) ∧ ∀ q, attributes sofar w = .error q → q ≤ w := by
  fun_induction attributes sofar w with
  | case1 sofar w hv => simp [Window.le_refl]
  | case2 sofar w v hv q hq found u hu hend ih =>
    have huw := Window.le_trans (Window.le_of_lt (Http.weight.lt hu))
      (Window.le_trans (weightName?_le hq) (Window.le_of_lt (semicolon?_lt hv)))
    exact ⟨fun x hx => Window.le_trans (ih.1 x hx) huw, fun q hq => Window.le_trans (ih.2 q hq) huw⟩
  | case3 sofar w v hv q hq found u hu hend =>
    refine ⟨by simp, fun q' hq' => ?_⟩
    obtain rfl := Except.error.inj hq'
    exact Window.le_trans (weightName?_le hq) (Window.le_of_lt (semicolon?_lt hv))
  | case4 sofar w v hv q hq hu =>
    refine ⟨by simp, fun q' hq' => ?_⟩
    obtain rfl := Except.error.inj hq'
    exact Window.le_trans (weightName?_le hq) (Window.le_of_lt (semicolon?_lt hv))
  | case5 sofar w v hv hq p u hp ih =>
    have huw :=
      Window.le_trans (Window.le_of_lt (parameter.lt hp)) (Window.le_of_lt (semicolon?_lt hv))
    cases ha : attributes sofar u with
    | error q =>
      simp only [Except.map, reduceCtorEq, false_implies, implies_true, Except.error.injEq,
        forall_eq', true_and]
      exact Window.le_trans (ih.2 q ha) huw
    | ok x =>
      simp only [Except.map, Except.ok.injEq, forall_eq', reduceCtorEq, false_implies, implies_true,
        and_true]
      exact Window.le_trans (ih.1 x ha) huw
  | case6 sofar w v hv hq hp => simp [Window.le_refl]

theorem item?_ok_lt {r : Reader α} {w u : Window} {a : Weighted α}
    (h : item? r w = some (.ok (a, u))) : u < w := by
  obtain ⟨⟨value, v⟩, hv, h⟩ := Option.map_eq_some_iff.1 h
  cases ha : attributes .one v with
  | error q => simp [ha, Except.map] at h
  | ok x =>
    simp only [ha, Except.map, Except.ok.injEq, Prod.mk.injEq] at h
    obtain ⟨_, rfl⟩ := h
    exact Window.lt_of_le_of_lt ((attributes_le _ v).1 x ha) (Reader.lt _ hv)

theorem item?_error_lt {r : Reader α} {w q : Window} (h : item? r w = some (.error q)) : q < w := by
  obtain ⟨⟨value, v⟩, hv, h⟩ := Option.map_eq_some_iff.1 h
  cases ha : attributes .one v with
  | error q' =>
    simp only [ha, Except.map, Except.error.injEq] at h
    subst h
    exact Window.lt_of_le_of_lt ((attributes_le _ v).2 q' ha) (Reader.lt _ hv)
  | ok x => simp [ha, Except.map] at h

def itemStart (w : Window) : Window :=
  let v := w.skip isSpace
  match v.eat? Byte.comma with
  | none => v
  | some u => u.skip isSpace

theorem itemStart_le (w : Window) : itemStart w ≤ w := by
  simp only [itemStart]
  split
  · exact Window.skip_le _ w
  · exact Window.le_trans (Window.skip_le _ _)
      (Window.le_trans (Window.le_of_lt (Window.eat?_lt ‹_›)) (Window.skip_le _ w))

theorem length_drop_lt {pos : Nat} {bytes : List UInt8} {u : Window} (h : u < .cut pos bytes) :
    (bytes.drop (u.pos - pos)).length < bytes.length := by
  have hpos : pos < u.pos := Window.pos_lt h
  have hlen := Window.length_lt h
  have hcut : (Window.cut pos bytes).rest.length ≤ bytes.length :=
    (List.takeWhile_sublist _).length_le
  rw [List.length_drop]
  omega

/-- The items of a list of bytes that begins at `pos`, up to the first that is malformed. One whose
weight cannot be read is left out, and reading goes on at the next comma, be it after a NUL. -/
def items (r : Reader α) (pos : Nat) (bytes : List UInt8) : List (Weighted α) :=
  match _h : item? r (itemStart (.cut pos bytes)) with
  | none => []
  | some (.ok (a, u)) => a :: items r u.pos (bytes.drop (u.pos - pos))
  | some (.error q) =>
    -- The bytes and not the window, which a NUL would end.
    let left := bytes.drop (q.pos - pos)
    let next := left.dropWhile (· ≠ Byte.comma)
    if next = [] then [] else items r (q.pos + (left.length - next.length)) next
termination_by bytes.length
decreasing_by
  · exact length_drop_lt (Window.lt_of_lt_of_le (item?_ok_lt _h) (itemStart_le _))
  · exact Nat.lt_of_le_of_lt (List.dropWhile_sublist _).length_le
      (length_drop_lt (Window.lt_of_lt_of_le (item?_error_lt _h) (itemStart_le _)))

end Weighted

/-- Weighted values, the greater weights first. -/
structure WeightedList (α : Type) where
  items : List (Weighted α)
deriving DecidableEq, Repr

namespace WeightedList

variable {α : Type}

def empty : WeightedList α := ⟨[]⟩

def clear (_ : WeightedList α) : WeightedList α := empty

/-- Adds a value after all of the same weight or a greater one. -/
def push (c : WeightedList α) (a : Weighted α) : WeightedList α :=
  let heavy x := decide (a.weight.millis ≤ x.weight.millis)
  ⟨c.items.takeWhile heavy ++ a :: c.items.dropWhile heavy⟩

def insert (c : WeightedList α) (r : Reader α) (text : List UInt8) (start : Nat)
    (stop : Option Nat) : WeightedList α :=
  (Weighted.items r start ((Window.upTo text stop).drop start)).foldl push c

theorem push_perm (c : WeightedList α) (a : Weighted α) : (c.push a).items.Perm (a :: c.items) := by
  refine List.perm_middle.trans (List.Perm.cons a ?_)
  rw [List.takeWhile_append_dropWhile]

end WeightedList

def weighted {α : Type} (r : Reader α) : Reader (Weighted α) where
  read w :=
    match Weighted.item? r w with
    | some (.ok x) => some x
    | _ => none
  lt h := by
    split at h
    · obtain rfl := Option.some.inj h
      exact Weighted.item?_ok_lt ‹_›
    · simp at h

end Recognition.Http

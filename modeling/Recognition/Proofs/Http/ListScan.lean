import Recognition.Proofs.Http.ItemList
import Recognition.Proofs.Http.RequestScan

namespace Recognition.Http

open Window

namespace Scan

def thousandths (digits : List UInt8) : Checked Nat :=
  (digits.zip [100, 10, 1]).foldrM
    (fun (b, unit) n => do return (← Checked.difference b.toNat 0x30) * unit + n) 0

def fraction : Scan Span :=
  ifFound (eat Byte.dot) (fun _ => skipWhile isDigit) do return .empty (← here)

def weight : Scan Weight := do
  let whole ← skipWhile isDigit
  let decimals ← fraction
  require (!(whole.isEmpty && decimals.isEmpty))
  let units ← lift (decimal (← slice whole))
  let part ← lift (thousandths (← slice decimals))
  match Weight.ofMillis? (units * 1000 + part) with
  | some found => return found
  | none => fail

def endsWeight : Scan Bool := do
  return (← peekAt 0).all fun b => b == Byte.semicolon || b == Byte.comma || isSpace b

def semicolon : Scan Unit := do
  exhaust (accept isSpace)
  eat Byte.semicolon
  exhaust (accept isSpace)

def weightName : Scan Unit := do
  ifFound (eat 0x71) pure (eat 0x51)
  exhaust (accept isSpace)
  eat Byte.equals
  exhaust (accept isSpace)

def delimitedWeight : Scan Weight := do
  let found ← weight
  require (← endsWeight)
  return found

/-- A weight or another parameter, or the offset at which a weight should be. -/
def oneAttribute : Scan (Except Nat (Weight ⊕ Parameter)) := do
  semicolon
  ifFound weightName
    (fun _ => ifFound delimitedWeight (fun found => pure (.ok (.inl found)))
      do return .error (← here))
    do return .ok (.inr (← parameter.call Parameter.span))

def takeIn (sofar : Weight × List Parameter) : Except Nat (Weight ⊕ Parameter) →
    Except Nat (Weight × List Parameter) ⊕ (Weight × List Parameter)
  | .ok (.inl found) => .inr (found, sofar.2)
  | .ok (.inr p) => .inr (sofar.1, sofar.2 ++ [p])
  | .error pos => .inl (.error pos)

def attributes : Scan (Except Nat (Weight × List Parameter)) :=
  loop (fun sofar => ifFound oneAttribute (fun found => pure (takeIn sofar found))
    (pure (.inl (.ok sofar)))) (.one, [])

variable {α : Type} {c : Cursor} {v w : Window}

def valueOrAny (m : Scan α) (span : α → Span) : Scan (Option α) :=
  ifFound (m.call span) (fun a => pure (some a)) do
    eat Byte.asterisk
    return none

def item (m : Scan α) (span : α → Span) : Scan (Except Nat (Weighted α)) := do
  let start ← here
  let val ← valueOrAny m span
  let found ← attributes
  let stop ← here
  return found.map fun (weight, params) => ⟨⟨start, stop⟩, val, weight, params⟩

def weighted (m : Scan α) (span : α → Span) : Scan (Weighted α) := do
  match ← item m span with
  | .ok a => return a
  | .error _ => fail

theorem thousandths_eq {digits : List UInt8} (h : digits.all isDigit = true) :
    thousandths digits = .ok (Weight.thousandths digits) := by
  suffices hunits : ∀ units : List Nat, (digits.zip units).foldrM
      (fun (b, unit) n => do return (← Checked.difference b.toNat 0x30) * unit + n) 0 =
        Except.ok ((List.zipWith (fun (b : UInt8) unit => (b.toNat - 0x30) * unit) digits
          units).foldr (· + ·) 0) from hunits _
  induction digits with
  | nil => exact fun units => rfl
  | cons b bs ih =>
    intro units
    rw [List.all_cons, Bool.and_eq_true] at h
    cases units with
    | nil => rfl
    | cons unit units =>
      have hrest := ih h.2 units
      simp only [List.zip_cons_cons, List.zipWith_cons_cons, List.foldr_cons, List.foldrM_cons]
      rw [hrest]
      simp only [Bind.bind, Except.bind, difference_digit h.1]
      rfl

theorem all_takeWhile_isDigit (bytes : List UInt8) : (bytes.takeWhile isDigit).all isDigit = true :=
  List.all_eq_true.2 fun _ => List.mem_takeWhile_imp

theorem all_readFraction (w : Window) : (Weight.readFraction w).1.all isDigit = true := by
  rw [Weight.readFraction]
  split
  · rfl
  · exact all_takeWhile_isDigit _

theorem exists_fraction (hv : v ≤ c.window) :
    ∃ s, fraction (c.moveTo v.pos) = .ok (some (s, (Weight.readFraction v).2.pos)) ∧
      s.isEmpty = (Weight.readFraction v).1.isEmpty ∧
      (c.window.rest ≠ [] → Checked.slice c.text s = .ok (Weight.readFraction v).1) := by
  have hrun := ((follows_eat Byte.dot).followsAt hv).run
  rw [Weight.readFraction]
  cases hu : v.eat? Byte.dot with
  | none =>
    refine ⟨.empty v.pos, ?_, ?_, fun hne => ?_⟩
    · simp [fraction, ifFound, here, Bind.bind, Pure.pure, hrun, hu]
    · simp [Span.empty, Span.isEmpty]
    · have hend := pos_add_length hv
      rw [Cursor.window_pos] at hend
      have hslice := Cursor.slice_eq (s := .empty v.pos) hne (Nat.le_refl _) (pos_le hv)
        (by simp only [Span.empty]; omega)
      simpa [Window.slice, Span.empty, Span.length] using hslice
  | some u =>
    have hcu := Window.le_trans (Window.le_of_lt (eat?_lt hu)) hv
    have hdigits := ((follows_skipWhile isDigit).followsAt hcu).run
    refine ⟨(u.run isDigit).1, ?_, run_isEmpty isDigit u, fun hne =>
      Cursor.slice_run hne hcu isDigit⟩
    have hafter : (u.run isDigit).2 = u.skip isDigit := rfl
    simp [fraction, ifFound, hrun, hu, hdigits, hafter]

theorem follows_weight : Follows weight Http.weight.read := by
  intro c
  have hwhole := (follows_skipWhile isDigit c).run
  have hwholeEmpty := run_isEmpty isDigit c.window
  have hafter : (c.window.run isDigit).2 = c.window.skip isDigit := rfl
  obtain ⟨s, hfraction, hempty, hslice⟩ := exists_fraction (skip_le isDigit c.window)
  have hle := Window.le_trans (Weight.readFraction_le (c.window.skip isDigit))
    (skip_le isDigit c.window)
  show FollowsAt c weight (if c.window.rest.takeWhile isDigit = [] ∧
    (Weight.readFraction (c.window.skip isDigit)).1 = [] then none else
      (Weight.ofMillis? _).map
        fun found => (found, (Weight.readFraction (c.window.skip isDigit)).2))
  by_cases hnone : c.window.rest.takeWhile isDigit = [] ∧
    (Weight.readFraction (c.window.skip isDigit)).1 = []
  · rw [if_pos hnone]
    exact .of_none (by simp [weight, require, fail, Bind.bind, hwhole, hafter, hfraction,
      hwholeEmpty, hempty, hnone])
  · -- With a digit there is a byte, so that an empty run can be cut out next to it as well.
    have hne : c.window.rest ≠ [] := by
      rintro hnil
      have hskip : (c.window.skip isDigit).rest = [] := by rw [skip_rest, hnil]; rfl
      exact hnone (by simp [hnil, Weight.readFraction, eat?, hskip])
    have hrequire : (!((c.window.run isDigit).1.isEmpty && s.isEmpty)) = true := by
      rw [hwholeEmpty, hempty]
      revert hnone
      cases c.window.rest.takeWhile isDigit <;>
        cases (Weight.readFraction (c.window.skip isDigit)).1 <;> simp
    have hunits := decimal_eq (all_takeWhile_isDigit c.window.rest)
    have hpart := thousandths_eq (all_readFraction (c.window.skip isDigit))
    have hwholeSlice := Cursor.slice_run hne (Window.le_refl _) isDigit
    rw [if_neg hnone]
    cases hfound : Weight.ofMillis? (Http.decimal (c.window.rest.takeWhile isDigit) * 1000 +
      Weight.thousandths (Weight.readFraction (c.window.skip isDigit)).1) with
    | none =>
      exact .of_none (by simp [weight, require, fail, slice, lift, Bind.bind, Pure.pure, hwhole,
        hafter, hfraction, hrequire, hwholeSlice, hunits, hslice hne, hpart, hfound, Except.map])
    | some found =>
      refine .of_le ?_ hle
      simp [weight, require, slice, lift, Bind.bind, Pure.pure, hwhole, hafter, hfraction, hrequire,
        hwholeSlice, hunits, hslice hne, hpart, hfound, Except.map]

theorem follows_endsWeight : Follows endsWeight fun w => some (Weighted.endsWeight w, w) := by
  intro c
  have hpeek := Cursor.peekAt_zero c
  refine .of_le ?_ (Window.le_refl _)
  simp [endsWeight, peekAt, Bind.bind, Pure.pure, hpeek, Except.map, Weighted.endsWeight]

theorem follows_semicolon :
    Follows semicolon fun w => (Weighted.semicolon? w).map fun v => ((), v) := by
  refine ((follows_skip isSpace).bind fun _ => (follows_eat Byte.semicolon).bind fun _ =>
    follows_skip isSpace).congr fun w => ?_
  cases hv : (w.skip isSpace).eat? Byte.semicolon <;> simp [Weighted.semicolon?, hv]

theorem follows_weightName :
    Follows weightName fun w => (Weighted.weightName? w).map fun v => ((), v) := by
  refine (((follows_eat 0x71).ifFound follows_pure (follows_eat 0x51)).bind fun _ =>
    (follows_skip isSpace).bind fun _ => (follows_eat Byte.equals).bind fun _ =>
      follows_skip isSpace).congr fun w => ?_
  rw [Weighted.weightName?]
  have hname : ((w.eat? 0x71).map fun v => ((), v)).elim ((w.eat? 0x51).map fun v => ((), v))
      (fun x => some x) = ((w.eat? 0x71).or (w.eat? 0x51)).map fun v => ((), v) := by
    cases w.eat? 0x71 <;> rfl
  refine (congrArg (Option.bind · _) hname).trans ?_
  cases hv : (w.eat? 0x71).or (w.eat? 0x51) with
  | none => simp
  | some v => cases hu : (v.skip isSpace).eat? Byte.equals <;> simp [hu]

theorem follows_delimitedWeight : Follows delimitedWeight fun w =>
    (Http.weight.read w).bind fun (found, v) =>
      if Weighted.endsWeight v then some (found, v) else none := by
  refine (follows_weight.bind fun found => follows_endsWeight.bind fun ends =>
    (follows_require ends).bind fun _ => follows_pure found).congr fun w => ?_
  cases hw : Http.weight.read w with
  | none => rfl
  | some x => cases hends : Weighted.endsWeight x.2 <;> simp [hends]

def attribute? (w : Window) : Option (Except Nat (Weight ⊕ Parameter) × Window) :=
  match Weighted.semicolon? w with
  | none => none
  | some v =>
    match Weighted.weightName? v with
    | some q =>
      match (Http.weight.read q).bind fun (found, u) =>
          if Weighted.endsWeight u then some (found, u) else none with
      | some (found, u) => some (.ok (.inl found), u)
      | none => some (.error q.pos, q)
    | none => (Http.parameter.read v).map fun (p, u) => (.ok (.inr p), u)

theorem follows_oneAttribute : Follows oneAttribute attribute? := by
  refine (follows_semicolon.bind fun _ => follows_weightName.ifFound
    (fun _ => follows_delimitedWeight.ifFound (fun found => follows_pure _)
      (follows_here.bind fun pos => follows_pure _))
    ((follows_parameter.calls lays_parameter fun _ => rfl).bind fun p => follows_pure _)).congr
    fun w => ?_
  rw [attribute?]
  cases Weighted.semicolon? w with
  | none => rfl
  | some v =>
    simp only [Option.map_some, Option.bind_some]
    cases Weighted.weightName? v with
    | none => cases hp : Http.parameter.read v <;> simp
    | some q =>
      simp only [Option.map_some, Option.elim_some]
      cases hx : (Http.weight.read q).bind fun (found, u) =>
        if Weighted.endsWeight u then some (found, u) else none <;> simp

def attributesFrom (sofar : Weight × List Parameter) (w : Window) :
    Except Nat (Weight × List Parameter) × Window :=
  match Weighted.attributes sofar.1 w with
  | .ok (found, params, u) => (.ok (found, sofar.2 ++ params), u)
  | .error q => (.error q.pos, q)

theorem follows_attributes : Follows attributes fun w => some (attributesFrom (.one, []) w) := by
  refine Follows.loop (g := fun sofar w => some (attributesFrom sofar w)) (fun sofar =>
    follows_oneAttribute.ifFound (fun found => follows_pure (takeIn sofar found))
      (follows_pure (.inl (.ok sofar)))) (fun sofar w => ?_) _
  obtain ⟨weight, params⟩ := sofar
  rw [attributesFrom, Weighted.attributes_eq, attribute?]
  cases hv : Weighted.semicolon? w with
  | none => simp [Follows.Round]
  | some v =>
    have hvw := Weighted.semicolon?_lt hv
    cases hq : Weighted.weightName? v with
    | none =>
      cases hp : Http.parameter.read v with
      | none => simp [Follows.Round, hq, hp]
      | some x =>
        obtain ⟨p, u⟩ := x
        have huw := Window.lt_of_lt_of_le (Http.parameter.lt hp) (Window.le_of_lt hvw)
        cases ha : Weighted.attributes weight u <;>
          simp [Follows.Round, hq, hp, takeIn, huw, attributesFrom, ha, Except.map]
    | some q =>
      have hqw := Window.lt_of_le_of_lt (Weighted.weightName?_le hq) hvw
      cases hu : Http.weight.read q with
      | none => simp [Follows.Round, hq, hu, takeIn]
      | some x =>
        obtain ⟨found, u⟩ := x
        have huw := Window.lt_of_lt_of_le (Http.weight.lt hu) (Window.le_of_lt hqw)
        cases hends : Weighted.endsWeight u <;>
          simp [Follows.Round, hq, hu, hends, takeIn, huw, attributesFrom]

/-- An item, or the offset at which its weight should be, and the window there. -/
def outcome {α : Type} : Except Window (Weighted α × Window) → Except Nat (Weighted α) × Window
  | .ok (a, u) => (.ok a, u)
  | .error q => (.error q.pos, q)

variable {m : Scan α} {r : Reader α} {span : α → Span}

theorem follows_valueOrAny (h : Follows (m.call span) r.read) :
    Follows (valueOrAny m span) (Weighted.valueOrAny r).read := by
  refine (h.ifFound (fun a => follows_pure (some a))
    ((follows_eat Byte.asterisk).bind fun _ => follows_pure none)).congr fun w => ?_
  cases ha : r.read w with
  | some x => simp [Weighted.valueOrAny, ha]
  | none => cases hv : w.eat? Byte.asterisk <;> simp [Weighted.valueOrAny, ha, hv]

theorem follows_item (h : Follows (m.call span) r.read) :
    Follows (item m span) fun w => (Weighted.item? r w).map outcome := by
  refine (follows_here.bind fun start => (follows_valueOrAny h).bind fun val =>
    follows_attributes.bind fun found => follows_here.bind fun stop => follows_pure _).congr
    fun w => ?_
  rw [Weighted.item?, Option.bind_some]
  cases hv : (Weighted.valueOrAny r).read w with
  | none => simp [hv]
  | some x =>
    obtain ⟨val, v⟩ := x
    cases ha : Weighted.attributes .one v <;>
      simp [hv, attributesFrom, ha, outcome, Except.map, spanTo]

theorem follows_weighted (h : Follows (m.call span) r.read) :
    Follows (weighted m span) (Http.weighted r).read := by
  intro c
  have hrun := (follows_item h c).run
  cases hitem : Weighted.item? r c.window with
  | none =>
    have hread : (Http.weighted r).read c.window = none := by simp [Http.weighted, hitem]
    rw [hread]
    exact .of_none (by simp [weighted, Bind.bind, hrun, hitem])
  | some found =>
    cases found with
    | error q =>
      have hread : (Http.weighted r).read c.window = none := by simp [Http.weighted, hitem]
      rw [hread]
      exact .of_none (by simp [weighted, Bind.bind, fail, hrun, hitem, outcome])
    | ok x =>
      have hread : (Http.weighted r).read c.window = some x := by simp [Http.weighted, hitem]
      rw [hread]
      refine .of_le ?_ (Window.le_of_lt (Weighted.item?_ok_lt hitem))
      simp [weighted, Bind.bind, Pure.pure, hrun, hitem, outcome]

end Scan

namespace Element

def scan : (e : Element) → Scan e.Result
  | token => Scan.token
  | quotedString => Scan.quotedString
  | value => Scan.value
  | parameter => Scan.parameter
  | cookieParameter => Scan.cookieParameter
  | mediaRange => Scan.mediaRange
  | mediaType => Scan.mediaType
  | urlParameter => Scan.urlParameter
  | url => Scan.url
  | language => Scan.language
  | cookie => Scan.cookie
  | agent => Scan.agent
  | protocol => Scan.protocol
  | request => Scan.request
  | header => Scan.header
  | weighted e => Scan.weighted e.scan e.span

theorem follows : (e : Element) → Scan.Follows e.scan e.reader.read
  | token => Scan.follows_token
  | quotedString => Scan.follows_quotedString
  | value => Scan.follows_value
  | parameter => Scan.follows_parameter
  | cookieParameter => Scan.follows_cookieParameter
  | mediaRange => Scan.follows_mediaRange
  | mediaType => Scan.follows_mediaType
  | urlParameter => Scan.follows_urlParameter
  | url => Scan.follows_url
  | language => Scan.follows_language
  | cookie => Scan.follows_cookie
  | agent => Scan.follows_agent
  | protocol => Scan.follows_protocol
  | request => Scan.follows_request
  | header => Scan.follows_header
  | weighted e => Scan.follows_weighted (e.follows.calls e.lays e.span_layout)

end Element

end Recognition.Http

import Recognition.Proofs.Http.WeightOrder
import Recognition.Proofs.Http.Written.Item

namespace Recognition.Http

open Window

namespace Weighted

variable {α : Type} {r : Reader α} {w q : Window} {pos : Nat} {bytes skipped tail : List UInt8}

theorem drop_of_le (h : q ≤ ⟨pos, bytes⟩) : bytes.drop (q.pos - pos) = q.rest := by
  obtain ⟨n, hn, rfl⟩ := h
  rw [Window.drop, Nat.min_eq_left hn, Nat.add_sub_cancel_left]

theorem items_of_dropped (hnul : 0 ∉ bytes) (h : item? r (itemStart ⟨pos, bytes⟩) = some (.error q))
    (hrest : q.rest = skipped ++ tail) (hskipped : Byte.comma ∉ skipped)
    (htail : Stops (· != Byte.comma) tail) :
    items r pos bytes = items r (q.pos + skipped.length) tail := by
  have hcut : Window.cut pos bytes = ⟨pos, bytes⟩ := cut_of_notMem hnul
  have hdrop : bytes.drop (q.pos - pos) = skipped ++ tail := by
    rw [← hrest, drop_of_le]
    exact Window.le_trans (Window.le_of_lt (item?_error_lt h)) (itemStart_le _)
  cases tail with
  | nil =>
    rw [List.append_nil] at hdrop
    rw [items_of_error_of_notMem hcut h (by rwa [hdrop]), items_nil]
  | cons b later =>
    obtain rfl : b = Byte.comma := by simpa using Stops.cons_iff.1 htail
    exact items_of_error hcut h hdrop hskipped

end Weighted

namespace ItemForm

variable {e : Accepted} {pos : Nat} {before tail : List UInt8}

/-- The weighted value of an item that begins at `pos`, after any white space, if its weight can be
read. -/
def weighted? (pos : Nat) (x : ItemForm e) : Option (Weighted e.element.Result) :=
  match x.flaw with
  | none => some (x.weighted pos)
  | some _ => none

theorem stops_isSpace_of_comma (htail : Stops (· != Byte.comma) tail) : Stops isSpace tail := by
  refine htail.mono fun b hb => ?_
  rw [bne_iff_ne]
  rintro rfl
  exact absurd hb (by decide)

theorem endsItem (x : ItemForm e) (htail : Stops (· != Byte.comma) tail) :
    EndsItem (x.trail.bytes ++ tail) := by
  rw [EndsItem, List.dropWhile_append_of_pos x.trail.spaces,
    (stops_isSpace_of_comma htail).dropWhile]
  exact htail

theorem flawAt_rest (x : ItemForm e) (f : Flaw) (pos : Nat) (htail : Stops (· != Byte.comma) tail) :
    ∃ skipped, (x.flawAt f pos (x.trail.bytes ++ tail)).rest = skipped ++ tail ∧
      Byte.comma ∉ skipped := by
  refine ⟨(f.value ++ x.trail.bytes).dropWhile isSpace, ?_, fun h => ?_⟩
  · rw [flawAt, skip_rest, ← List.append_assoc]
    exact dropWhile_append_of_stops (stops_isSpace_of_comma htail)
  · rcases List.mem_append.1 ((List.dropWhile_sublist _).subset h) with h | h
    · exact (f.value_bytes _ h).1 rfl
    · exact absurd (x.trail.spaces _ h) (by decide)

section Step

variable (x : ItemForm e) (hnul : 0 ∉ before ++ (x.core ++ (x.trail.bytes ++ tail)))
  (hstart : Weighted.itemStart ⟨pos, before ++ (x.core ++ (x.trail.bytes ++ tail))⟩ =
    ⟨pos + before.length, x.core ++ (x.trail.bytes ++ tail)⟩)
  (htail : Stops (· != Byte.comma) tail)

include hnul hstart htail

theorem items_of_none (hflaw : x.flaw = none) :
    Weighted.items e.element.reader pos (before ++ (x.core ++ (x.trail.bytes ++ tail))) =
      x.weighted (pos + before.length) :: Weighted.items e.element.reader
        (pos + before.length + x.core.length) (x.trail.bytes ++ tail) := by
  have hitem := x.item?_of_none hflaw (pos + before.length) (x.endsItem htail)
  rw [← hstart] at hitem
  have hle :=
    Window.le_trans (Window.le_of_lt (Weighted.item?_ok_lt hitem)) (Weighted.itemStart_le _)
  rw [Weighted.items_of_ok (Weighted.cut_of_notMem hnul) hitem, Weighted.drop_of_le hle]

theorem items_of_some {f : Flaw} (hflaw : x.flaw = some f) :
    Weighted.items e.element.reader pos (before ++ (x.core ++ (x.trail.bytes ++ tail))) =
      Weighted.items e.element.reader
        (pos + before.length + x.core.length + x.trail.bytes.length) tail := by
  have hitem := x.item?_of_some hflaw (pos + before.length) (x.endsItem htail)
  obtain ⟨skipped, hrest, hskipped⟩ := x.flawAt_rest f (pos + before.length) htail
  rw [← hstart] at hitem
  have hend := pos_add_length (Window.le_trans
    (Window.le_of_lt (Weighted.item?_error_lt hitem)) (Weighted.itemStart_le _))
  rw [Weighted.items_of_dropped hnul hitem hrest hskipped htail]
  refine congrArg (Weighted.items e.element.reader · tail) ?_
  simp only [hrest, List.length_append] at hend
  omega

end Step

/-- What follows an item: other items, each after a comma. -/
def later (xs : List (ItemForm e)) : List UInt8 := xs.flatMap fun x => Byte.comma :: x.bytes

theorem stops_later (xs : List (ItemForm e)) : Stops (· != Byte.comma) (later xs) := by
  have hlater : Stops (· != Byte.comma) (later xs ++ []) := (Stops.nil _).flatMap (by decide) xs
  rwa [List.append_nil] at hlater

theorem nul_notMem_later (xs : List (ItemForm e)) : 0 ∉ later xs := by
  rw [later, List.mem_flatMap]
  rintro ⟨x, -, hx⟩
  exact x.nul_notMem ((List.mem_cons.1 hx).resolve_left (by decide))

/-- An item that begins at `pos` with the white space before it. -/
def placed? (pos : Nat) (x : ItemForm e) : Option (Weighted e.element.Result) :=
  x.weighted? (pos + x.lead.bytes.length)

def foundLater (xs : List (ItemForm e)) (pos : Nat) : List (Weighted e.element.Result) :=
  (inTurn (fun x => Byte.comma :: x.bytes) (fun pos x => placed? (pos + 1) x) pos xs).filterMap id

theorem items_step (x : ItemForm e) {xs : List (ItemForm e)}
    (hnul : 0 ∉ before ++ (x.core ++ (x.trail.bytes ++ later xs)))
    (hstart : Weighted.itemStart ⟨pos, before ++ (x.core ++ (x.trail.bytes ++ later xs))⟩ =
      ⟨pos + before.length, x.core ++ (x.trail.bytes ++ later xs)⟩)
    (hlater : ∀ (g : Gap) (pos : Nat), Weighted.items e.element.reader pos (g.bytes ++ later xs) =
      foundLater xs (pos + g.bytes.length)) :
    Weighted.items e.element.reader pos (before ++ (x.core ++ (x.trail.bytes ++ later xs))) =
      (x.weighted? (pos + before.length)).toList ++
        foundLater xs (pos + before.length + x.core.length + x.trail.bytes.length) := by
  cases hflaw : x.flaw with
  | none =>
    rw [x.items_of_none hnul hstart (stops_later xs) hflaw, hlater, weighted?, hflaw]
    rfl
  | some f =>
    have hnone := hlater .none (pos + before.length + x.core.length + x.trail.bytes.length)
    rw [x.items_of_some hnul hstart (stops_later xs) hflaw, weighted?, hflaw]
    exact hnone

theorem stops_isSpace_core (x : ItemForm e) (rest : List UInt8) : Stops isSpace (x.core ++ rest) :=
  (x.stops_core rest).mono fun b hb => by simp [hb]

theorem itemStart_lead (x : ItemForm e) (pos : Nat) (rest : List UInt8) :
    Weighted.itemStart ⟨pos, x.lead.bytes ++ (x.core ++ rest)⟩ =
      ⟨pos + x.lead.bytes.length, x.core ++ rest⟩ := by
  have hcomma : (⟨pos + x.lead.bytes.length, x.core ++ rest⟩ : Window).eat? Byte.comma = none :=
    eat?_of_stops (by decide) (x.stops_core rest)
  rw [Weighted.itemStart]
  simp only [x.lead.skip_eq (x.stops_isSpace_core rest), hcomma]

theorem itemStart_comma (x : ItemForm e) (g : Gap) (pos : Nat) (rest : List UInt8) :
    Weighted.itemStart ⟨pos, g.bytes ++ Byte.comma :: (x.lead.bytes ++ (x.core ++ rest))⟩ =
      ⟨pos + g.bytes.length + 1 + x.lead.bytes.length, x.core ++ rest⟩ := by
  have hcomma : Stops isSpace (Byte.comma :: (x.lead.bytes ++ (x.core ++ rest))) :=
    Stops.cons_iff.2 (by decide)
  rw [Weighted.itemStart]
  simp only [g.skip_eq hcomma, eat?_cons, x.lead.skip_eq (x.stops_isSpace_core rest)]

theorem length_bytes (x : ItemForm e) :
    x.bytes.length = x.lead.bytes.length + x.core.length + x.trail.bytes.length := by
  simp only [bytes, List.length_append, Nat.add_assoc]

theorem foundLater_cons (x : ItemForm e) (xs : List (ItemForm e)) (pos : Nat) :
    foundLater (x :: xs) pos = (x.weighted? (pos + 1 + x.lead.bytes.length)).toList ++
      foundLater xs (pos + 1 + x.lead.bytes.length + x.core.length + x.trail.bytes.length) := by
  have hend : pos + 1 + x.lead.bytes.length + x.core.length + x.trail.bytes.length =
      pos + (Byte.comma :: x.bytes).length := by
    rw [List.length_cons, x.length_bytes]
    omega
  rw [foundLater, inTurn, filterMap_id_cons, hend]
  rfl

theorem items_later (xs : List (ItemForm e)) (g : Gap) (pos : Nat) :
    Weighted.items e.element.reader pos (g.bytes ++ later xs) =
      foundLater xs (pos + g.bytes.length) := by
  have hnul : 0 ∉ g.bytes ++ later xs := by simp [g.nul_notMem, nul_notMem_later]
  -- The white space changes from step to step: it is what comes after the item before.
  induction xs generalizing g pos with
  | nil =>
    apply Weighted.items_of_none (Weighted.cut_of_notMem hnul)
    have hcomma : (⟨pos + g.bytes.length, []⟩ : Window).eat? Byte.comma = none := rfl
    rw [Weighted.itemStart]
    simp only [later, List.flatMap_nil, g.skip_eq (Stops.nil isSpace), hcomma]
    exact Weighted.item?_of_nil rfl
  | cons x xs ih =>
    have hbytes : g.bytes ++ later (x :: xs) =
        (g.bytes ++ Byte.comma :: x.lead.bytes) ++ (x.core ++ (x.trail.bytes ++ later xs)) := by
      simp [later, bytes]
    have hpos : pos + (g.bytes ++ Byte.comma :: x.lead.bytes).length =
        pos + g.bytes.length + 1 + x.lead.bytes.length := by
      rw [List.length_append, List.length_cons]
      omega
    have hstart := x.itemStart_comma g pos (x.trail.bytes ++ later xs)
    rw [← hpos, ← List.cons_append, ← List.append_assoc] at hstart
    rw [hbytes] at hnul ⊢
    rw [items_step x hnul hstart fun g pos => ih g pos (by simp [g.nul_notMem, nul_notMem_later]),
      hpos, foundLater_cons]

/-- A list is read as the items whose weight can be read, each where it stands. -/
theorem items_joined (xs : List (ItemForm e)) (pos : Nat) :
    Weighted.items e.element.reader pos (joined Byte.comma bytes xs) =
      (inJoin Byte.comma bytes placed? pos xs).filterMap id := by
  cases xs with
  | nil => exact Weighted.items_nil _ pos
  | cons x xs =>
    have hbytes : joined Byte.comma bytes (x :: xs) =
        x.lead.bytes ++ (x.core ++ (x.trail.bytes ++ later xs)) := by
      simp [joined, later, bytes]
    have hnul : 0 ∉ x.lead.bytes ++ (x.core ++ (x.trail.bytes ++ later xs)) := by
      rw [← hbytes, joined, List.mem_append, not_or]
      exact ⟨x.nul_notMem, nul_notMem_later xs⟩
    have hend : pos + x.lead.bytes.length + x.core.length + x.trail.bytes.length =
        pos + x.bytes.length := by
      rw [x.length_bytes]
      omega
    rw [hbytes, items_step x hnul (x.itemStart_lead pos _) (items_later xs), hend, inJoin,
      filterMap_id_cons]
    rfl

end ItemForm

/-- What an item says, in bytes. -/
structure ItemText where
  bytes : List UInt8
  /-- The parts of the value, or none for an asterisk. -/
  value : Option (List (List UInt8))
  weight : Weight
  /-- Names and values, with the quotes if there are any. -/
  params : List (List UInt8 × List UInt8)
deriving DecidableEq, Repr

namespace ItemText

variable {e : Accepted} {text : List UInt8} {pos : Nat}

/-- What a weighted value says in the text that it was read from. -/
def ofWeighted (e : Accepted) (text : List UInt8) (a : Weighted e.element.Result) : ItemText where
  bytes := a.span.bytes text
  value := a.value.map fun v => (e.spans v).map (·.bytes text)
  weight := a.weight
  params := a.params.map fun p => (p.name.bytes text, p.value.span.bytes text)

def ofAttribute? : AttributeForm → Option (List UInt8 × List UInt8)
  | .param _ p _ => some (p.name.bytes, p.value.bytes)
  | .weight .. => none

/-- What an item was made to say, if its weight can be read. -/
def ofItem? (x : ItemForm e) : Option ItemText :=
  match x.flaw with
  | none => some ⟨x.core, x.value.map e.parts, x.weight, x.attributes.filterMap ofAttribute?⟩
  | some _ => none

theorem params_eq (as : List AttributeForm)
    (h : StandsAt text pos (as.flatMap AttributeForm.bytes)) :
    (AttributeForm.params pos as).map (fun p => (p.name.bytes text, p.value.span.bytes text)) =
      as.filterMap ofAttribute? := by
  refine map_filterMap_of_eq (map_inTurn (fun a _ pos ha => ?_) h)
  cases a with
  | param j p hname => exact congrArg some (p.bytes_param (StandsAt.append_iff.1 ha).2)
  | weight j n g a => rfl

theorem ofItem?_eq (x : ItemForm e) (h : StandsAt text pos x.bytes) :
    (x.placed? pos).map (ofWeighted e text) = ofItem? x := by
  obtain ⟨hcore, -⟩ := StandsAt.append_iff.1 (StandsAt.append_iff.1 h).2
  obtain ⟨hvalue, hlater⟩ := StandsAt.append_iff.1 hcore
  have hparams := params_eq x.attributes (StandsAt.append_iff.1 hlater).1
  have hparts : (x.value.map (e.place (pos + x.lead.bytes.length))).map
      (fun v => (e.spans v).map (·.bytes text)) = x.value.map e.parts := by
    rw [ItemForm.valueBytes] at hvalue
    cases hv : x.value with
    | none => rfl
    | some v =>
      rw [hv] at hvalue
      exact congrArg some (e.bytes_spans v hvalue)
  rw [ItemForm.placed?, ItemForm.weighted?, ofItem?]
  cases x.flaw with
  | none =>
    simp only [Option.map_some, ofWeighted, ItemForm.weighted, hcore.bytes_over, hparts, hparams]
  | some f => rfl

end ItemText

namespace WeightedList

/-- A list of languages or of media ranges, however it is written: its items are taken in except for
those whose weight cannot be read, in the order of a stable sort that puts the greater weights
first. Each has the value, the weight and the other parameters that it was made of, and the range
from its first byte to its last. -/
theorem insert_written {text : List UInt8} {start : Nat} {stop : Option Nat} (e : Accepted)
    (xs : List (ItemForm e))
    (htext : (Window.upTo text stop).drop start = joined Byte.comma ItemForm.bytes xs) :
    ∃ found, found = (inJoin Byte.comma ItemForm.bytes ItemForm.placed? start xs).filterMap id ∧
      found.map (ItemText.ofWeighted e text) = xs.filterMap ItemText.ofItem? ∧
      Weighted.IsStableSort (empty.insert e.element.reader text start stop).items found ∧
      (empty.insert e.element.reader text start stop).items =
        found.mergeSort Weighted.outweighs := by
  have hstands := StandsAt.drop_upTo text start stop
  rw [htext] at hstands
  have hitems : (empty.insert e.element.reader text start stop).items =
      ((inJoin Byte.comma ItemForm.bytes ItemForm.placed? start xs).filterMap id).mergeSort
        Weighted.outweighs := by
    rw [insert, htext, ItemForm.items_joined, Weighted.IsStableSort.mergeSort_eq_foldl]
  refine ⟨_, rfl, ?_, ?_, hitems⟩
  · exact map_filterMap_of_eq (map_inJoin (fun x _ _ => ItemText.ofItem?_eq x) hstands)
  · rw [hitems]
    exact Weighted.IsStableSort.mergeSort _

/-- Items with a comma in quotes, with white space and with a weight that a letter follows. -/
theorem insert_written_mixed :
    ∃ xs : List (ItemForm .language),
      joined Byte.comma ItemForm.bytes xs =
        "fr;q=0.5 , *;x=\"a,b\";Q=0.8,en;q=0.5x,de-AT; v=1".toUTF8.data.toList ∧
      (empty.insert language
        "fr;q=0.5 , *;x=\"a,b\";Q=0.8,en;q=0.5x,de-AT; v=1".toUTF8.data.toList 0 none).items =
        [⟨⟨37, 47⟩, some ⟨⟨37, 42⟩, [⟨37, 39⟩, ⟨40, 42⟩]⟩, .one,
          [⟨⟨44, 47⟩, ⟨44, 45⟩, .token ⟨46, 47⟩⟩]⟩,
          ⟨⟨11, 26⟩, none, ⟨800, by decide⟩,
            [⟨⟨13, 20⟩, ⟨13, 14⟩, .quoted ⟨⟨15, 20⟩, ⟨16, 19⟩⟩⟩]⟩,
          ⟨⟨0, 8⟩, some ⟨⟨0, 2⟩, [⟨0, 2⟩]⟩, ⟨500, by decide⟩, []⟩] := by
  let blank : Gap := ⟨[0x20], List.forall_mem_singleton.2 (by decide)⟩
  let x : TokenForm := ⟨[0x78], by decide, List.forall_mem_singleton.2 (by decide)⟩
  let v : TokenForm := ⟨[0x76], by decide, List.forall_mem_singleton.2 (by decide)⟩
  let one : TokenForm := ⟨[0x31], by decide, List.forall_mem_singleton.2 (by decide)⟩
  let quoted : List QuotedPiece := [.plain 0x61 (by decide), .plain 0x2C (by decide),
    .plain 0x62 (by decide)]
  let flaw : Flaw :=
    { joint := ⟨.none, .none⟩
      name := ⟨false, .none⟩
      value := [0x30, 0x2E, 0x35, 0x78]
      value_bytes := by simp; decide
      unreadable := by
        intro a u h
        have hread : weight.read ⟨0, [0x30, 0x2E, 0x35, 0x78]⟩ =
            some (⟨500, by decide⟩, ⟨3, [0x78]⟩) := by
          decide +kernel
        obtain ⟨-, rfl⟩ := Prod.mk.inj (Option.some.inj (hread.symm.trans h))
        rfl }
  let xs : List (ItemForm .language) :=
    [⟨.none, some ⟨[[0x66, 0x72]], by decide, by decide, by simp; decide⟩,
        [.weight ⟨.none, .none⟩ ⟨false, .none⟩ .none ⟨500, by decide⟩], none, blank⟩,
      ⟨blank, none, [.param ⟨.none, .none⟩ ⟨x, [], [], .quoted quoted⟩ (by decide),
        .weight ⟨.none, .none⟩ ⟨true, .none⟩ .none ⟨800, by decide⟩], none, .none⟩,
      ⟨.none, some ⟨[[0x65, 0x6E]], by decide, by decide, by simp; decide⟩, [], some flaw, .none⟩,
      ⟨.none, some ⟨[[0x64, 0x65], [0x41, 0x54]], by decide, by decide, by simp; decide⟩,
        [.param ⟨.none, blank⟩ ⟨v, [], [], .token one⟩ (by decide)], none, .none⟩]
  have htext : (Window.upTo
      "fr;q=0.5 , *;x=\"a,b\";Q=0.8,en;q=0.5x,de-AT; v=1".toUTF8.data.toList none).drop 0 =
        joined Byte.comma ItemForm.bytes xs := by
    decide +kernel
  obtain ⟨found, rfl, -, -, hitems⟩ := insert_written .language xs htext
  refine ⟨xs, htext.symm, hitems.trans ?_⟩
  rw [Weighted.IsStableSort.mergeSort_eq_foldl]
  decide +kernel

end WeightedList

end Recognition.Http

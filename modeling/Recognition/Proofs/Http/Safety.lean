import Recognition.Proofs.Http.ListScan
import Recognition.Proofs.Http.Progress

namespace Recognition.Http

open Window Layout

namespace Scan

variable {α : Type} {m : Scan α} {span : α → Span} {r : Reader α}

def headers : Scan (List Header) := many (header.call Header.span)

def cookies : Scan (List Cookie) := do
  exhaust (accept isSpace)
  ifFound (cookie.call Cookie.span)
    (fun first => do
      let others ← many do
        exhaust (accept isSpace)
        eat Byte.semicolon
        exhaust (accept isSpace)
        cookie.call Cookie.span
      return first :: others)
    (pure [])

def itemStart : Scan Unit := do
  exhaust (accept isSpace)
  ifFound (eat Byte.comma) (fun _ => exhaust (accept isSpace)) (pure ())

def bytesFrom (pos : Nat) : Scan (List UInt8) := fun c => slice ⟨pos, c.stop⟩ c

def jump (pos : Nat) : Scan Unit := fun _ => .ok (some ((), pos))

/-- Adds an item, or goes on at the next comma after the offset of what is no weight. -/
def add (list : WeightedList α) : Except Nat (Weighted α) →
    Scan (WeightedList α ⊕ WeightedList α)
  | .ok a => return .inr (list.push a)
  | .error pos => do
    match (← bytesFrom pos).findIdx? (· == Byte.comma) with
    | some i =>
      jump (pos + i)
      return .inr list
    | none => return .inl list

def addNext (m : Scan α) (span : α → Span) (list : WeightedList α) :
    Scan (WeightedList α ⊕ WeightedList α) := do
  itemStart
  ifFound peek (fun _ => ifFound (item m span) (add list) (pure (.inl list))) (pure (.inl list))

def insert (m : Scan α) (span : α → Span) : WeightedList α → Scan (WeightedList α) :=
  loop (addNext m span)

theorem follows_headers : Follows headers fun w => some (Http.header.many w) :=
  (follows_header.calls lays_header fun _ => rfl).many

def readCookies (w : Window) : List Cookie × Window :=
  match Http.cookie.read (w.skip isSpace) with
  | none => ([], w.skip isSpace)
  | some (c, v) => (c :: (Cookie.next.many v).1, (Cookie.next.many v).2)

theorem follows_cookies : Follows cookies fun w => some (readCookies w) := by
  have hcookie := follows_cookie.calls lays_cookie fun _ => rfl
  have hnext : Follows (do
      exhaust (accept isSpace)
      eat Byte.semicolon
      exhaust (accept isSpace)
      cookie.call Cookie.span) Cookie.next.read := by
    refine ((follows_skip isSpace).bind fun _ => (follows_eat Byte.semicolon).bind fun _ =>
      (follows_skip isSpace).bind fun _ => hcookie).congr fun w => ?_
    cases hv : (w.skip isSpace).eat? Byte.semicolon <;> simp [Cookie.next, hv]
  refine ((follows_skip isSpace).bind fun _ => hcookie.ifFound (fun first =>
    hnext.many.bind fun others => follows_pure (first :: others)) (follows_pure [])).congr
    fun w => ?_
  cases hc : Http.cookie.read (w.skip isSpace) <;> simp [readCookies, hc]

theorem follows_itemStart : Follows itemStart fun w => some ((), Weighted.itemStart w) := by
  refine ((follows_skip isSpace).bind fun _ => (follows_eat Byte.comma).ifFound
    (fun _ => follows_skip isSpace) (follows_pure ())).congr fun w => ?_
  cases hv : (w.skip isSpace).eat? Byte.comma <;> simp [Weighted.itemStart, hv]

section Insert

variable {c : Cursor} {q u : Window} {a : Weighted α} {list : WeightedList α}
  {skipped rest : List UInt8}

theorem addNext_eq (h : Follows (m.call span) r.read) (list : WeightedList α) (c : Cursor) :
    addNext m span list c =
      match Weighted.item? r (Weighted.itemStart c.window) with
      | none => .ok (some (.inl list, (Weighted.itemStart c.window).pos))
      | some (.ok (a, u)) => .ok (some (.inr (list.push a), u.pos))
      | some (.error q) => add list (.error q.pos) (c.moveTo q.pos) := by
  have hstart := (follows_itemStart c).run
  have hle := Weighted.itemStart_le c.window
  have hpeek := (follows_peek.followsAt hle).run
  have hitem := ((follows_item h).followsAt hle).run
  cases hrest : (Weighted.itemStart c.window).rest with
  | nil =>
    rw [Weighted.item?_of_nil hrest]
    simp [addNext, ifFound, Bind.bind, Pure.pure, hstart, hpeek, hrest]
  | cons b bs =>
    cases hfound : Weighted.item? r (Weighted.itemStart c.window) with
    | none => simp [addNext, ifFound, Bind.bind, Pure.pure, hstart, hpeek, hrest, hitem, hfound]
    | some x =>
      cases x with
      | ok found =>
        simp [addNext, ifFound, add, Bind.bind, Pure.pure, hstart, hpeek, hrest, hitem, hfound,
          outcome]
      | error q =>
        simp [addNext, ifFound, Bind.bind, hstart, hpeek, hrest, hitem, hfound, outcome]

theorem findIdx?_comma {bytes : List UInt8} (h : Byte.comma ∉ bytes) :
    bytes.findIdx? (· == Byte.comma) = none := by
  rw [List.findIdx?_eq_none_iff]
  intro b hb
  exact beq_false_of_ne (ne_of_mem_of_not_mem hb h)

theorem add_error (list : WeightedList α) (hpos : c.pos ≤ c.stop)
    (hsplit : c.bytes = skipped ++ Byte.comma :: rest) (hskipped : Byte.comma ∉ skipped) :
    add list (.error c.pos) c = .ok (some (.inr list, c.pos + skipped.length)) := by
  have hslice : Checked.slice c.text ⟨c.pos, c.stop⟩ = .ok c.bytes := Cursor.slice_bytes hpos
  have hcomma : c.bytes.findIdx? (· == Byte.comma) = some skipped.length := by
    rw [hsplit, List.findIdx?_append, findIdx?_comma hskipped, List.findIdx?_cons]
    simp
  simp [add, bytesFrom, slice, lift, jump, Bind.bind, Pure.pure, Except.map, hslice, hcomma]

theorem add_error_of_notMem (list : WeightedList α) (hpos : c.pos ≤ c.stop)
    (hcomma : Byte.comma ∉ c.bytes) :
    add list (.error c.pos) c = .ok (some (.inl list, c.pos)) := by
  have hslice : Checked.slice c.text ⟨c.pos, c.stop⟩ = .ok c.bytes := Cursor.slice_bytes hpos
  simp [add, bytesFrom, slice, lift, Bind.bind, Pure.pure, Except.map, hslice,
    findIdx?_comma hcomma]

theorem bytes_lt (h : u < c.window) :
    c.pos < u.pos ∧ u.pos ≤ c.stop ∧ (c.moveTo u.pos).bytes = c.bytes.drop (u.pos - c.pos) := by
  have hpos : c.pos < u.pos := pos_lt h
  have hle : u.pos - c.pos ≤ c.bytes.length := (Weighted.sub_pos_le h).2
  rw [Cursor.length_bytes] at hle
  exact ⟨hpos, by omega, Cursor.bytes_moveTo (Nat.le_of_lt hpos)⟩

/-- The items from here on are added, with no round of the loop that does not move on. -/
def Inserts (m : Scan α) (span : α → Span) (r : Reader α) (list : WeightedList α) (c : Cursor) :
    Prop :=
  (insert m span list).result c =
    .ok (some ((Weighted.items r c.pos c.bytes).foldl WeightedList.push list))

section Rounds

variable (h : Follows (m.call span) r.read)

include h

theorem inserts_of_none (hitem : Weighted.item? r (Weighted.itemStart c.window) = none) :
    Inserts m span r list c := by
  have hround := addNext_eq h list c
  rw [hitem] at hround
  rw [Inserts, Weighted.items_of_none c.window_eq_cut.symm hitem, result, insert,
    loop_of_done hround]
  rfl

theorem inserts_of_ok (hitem : Weighted.item? r (Weighted.itemStart c.window) = some (.ok (a, u)))
    (huw : u < c.window) (ih : Inserts m span r (list.push a) (c.moveTo u.pos)) :
    Inserts m span r list c := by
  obtain ⟨hpos, hstop, hbytes⟩ := bytes_lt huw
  have hround := addNext_eq h list c
  rw [hitem] at hround
  rw [Inserts, Weighted.items_of_ok c.window_eq_cut.symm hitem, ← hbytes, result, insert,
    loop_of_round hround hpos (Nat.lt_of_lt_of_le hpos hstop)]
  exact ih

theorem inserts_of_comma (hitem : Weighted.item? r (Weighted.itemStart c.window) = some (.error q))
    (hqw : q < c.window) (hsplit : (c.moveTo q.pos).bytes = skipped ++ Byte.comma :: rest)
    (hskipped : Byte.comma ∉ skipped)
    (ih : Inserts m span r list (c.moveTo (q.pos + skipped.length))) : Inserts m span r list c := by
  obtain ⟨hpos, hstop, hbytes⟩ := bytes_lt hqw
  have hround := addNext_eq h list c
  rw [hitem] at hround
  have hadd := add_error (c := c.moveTo q.pos) list hstop hsplit hskipped
  have hrest : (c.moveTo (q.pos + skipped.length)).bytes = Byte.comma :: rest := by
    have hmove := (c.moveTo q.pos).bytes_moveTo (Nat.le_add_right q.pos skipped.length)
    rw [hsplit, Cursor.moveTo_pos, Nat.add_sub_cancel_left, List.drop_left] at hmove
    exact hmove
  rw [Inserts, Weighted.items_of_error c.window_eq_cut.symm hitem (hbytes ▸ hsplit) hskipped,
    ← hrest, result, insert, loop_of_round (hround.trans hadd)
      (Nat.lt_add_right skipped.length hpos) (Nat.lt_of_lt_of_le hpos hstop)]
  exact ih

theorem inserts_of_last (hitem : Weighted.item? r (Weighted.itemStart c.window) = some (.error q))
    (hqw : q < c.window) (hcomma : Byte.comma ∉ (c.moveTo q.pos).bytes) :
    Inserts m span r list c := by
  obtain ⟨hpos, hstop, hbytes⟩ := bytes_lt hqw
  have hround := addNext_eq h list c
  rw [hitem] at hround
  have hadd := add_error_of_notMem (c := c.moveTo q.pos) list hstop hcomma
  rw [Inserts, Weighted.items_of_error_of_notMem c.window_eq_cut.symm hitem (hbytes ▸ hcomma),
    result, insert, loop_of_done (hround.trans hadd)]
  rfl

theorem inserts (list : WeightedList α) (c : Cursor) : Inserts m span r list c := by
  -- Each item takes something off the bytes up to the bound, be it kept or dropped.
  induction hn : c.stop - c.pos using Nat.strong_induction_on generalizing list c with
  | h n ih =>
    subst hn
    have hitemLe := Weighted.itemStart_le c.window
    cases hitem : Weighted.item? r (Weighted.itemStart c.window) with
    | none => exact inserts_of_none h hitem
    | some x =>
      cases x with
      | ok found =>
        obtain ⟨a, u⟩ := found
        have huw := lt_of_lt_of_le (Weighted.item?_ok_lt hitem) hitemLe
        obtain ⟨hpos, hstop, _⟩ := bytes_lt huw
        apply inserts_of_ok h hitem huw
        exact ih _ (Nat.sub_lt_sub_left (Nat.lt_of_lt_of_le hpos hstop) hpos) _ _ rfl
      | error q =>
        have hqw := lt_of_lt_of_le (Weighted.item?_error_lt hitem) hitemLe
        obtain ⟨hpos, hstop, _⟩ := bytes_lt hqw
        by_cases hcomma : Byte.comma ∈ (c.moveTo q.pos).bytes
        · obtain ⟨skipped, rest, hsplit, hskipped⟩ := List.eq_append_cons_of_mem hcomma
          apply inserts_of_comma h hitem hqw hsplit hskipped
          exact ih _ (Nat.sub_lt_sub_left (Nat.lt_of_lt_of_le hpos hstop)
            (Nat.lt_add_right skipped.length hpos)) _ _ rfl
        · exact inserts_of_last h hitem hqw hcomma

end Rounds

end Insert

theorem Follows.result_of {α : Type} {m : Scan α} {g : Window → Option (α × Window)}
    (h : Follows m g) (text : List UInt8) (start : Nat) (stop : Option Nat) :
    m.result (.of text start stop) = .ok ((g (.of text start stop)).map Prod.fst) := by
  have hrun := (h (.of text start stop)).run
  rw [Cursor.window_of] at hrun
  rw [result, hrun]
  cases g (.of text start stop) <;> rfl

end Scan

variable {text : List UInt8} {start : Nat} {stop : Option Nat}

theorem readCookies_fst (w : Window) : (Scan.readCookies w).1 = Cookie.list w := by
  rw [Scan.readCookies, Cookie.list]
  cases cookie.read (w.skip isSpace) <;> rfl

/-- An element takes up bytes from where it was looked for, up to where the text ends. -/
theorem Element.span_of_parse {e : Element} {a : e.Result} (h : e.parse text start stop = some a) :
    (e.layout a).Placed ∧ (e.layout a).span = e.span a ∧ (e.span a).start = start ∧
      start < (e.span a).stop ∧ (e.span a).stop ≤ endOf text start stop := by
  obtain ⟨⟨_, v⟩, hread, rfl⟩ := Option.map_eq_some_iff.1 h
  have hspan := e.lays.span hread
  have hlt := e.reader.lt hread
  rw [e.span_layout] at hspan
  rw [hspan]
  exact ⟨e.lays.placed hread, (e.span_layout _).trans hspan, rfl, pos_lt hlt, pos_le_endOf hlt⟩

/-- Wherever reading begins and ends in a text, nothing goes wrong in it: no byte or range outside
the text is asked for, no number gets below zero, and every loop moves on. What is found takes up
bytes from where it was looked for, and has its parts in order within it. -/
theorem parse_in_bounds (text : List UInt8) (start : Nat) (stop : Option Nat) :
    (∀ e : Element,
      e.scan.result (.of text start stop) = .ok (e.parse text start stop) ∧
      ∀ a, e.parse text start stop = some a →
        (e.layout a).Placed ∧ (e.layout a).span = e.span a ∧ (e.span a).start = start ∧
          start < (e.span a).stop ∧ (e.span a).stop ≤ endOf text start stop) ∧
    (Scan.headers (.of text start stop) = .ok (some (headers text start stop)) ∧
      Advances (endOf text start stop) start ((headers text start stop).1.map Header.span)) ∧
    (Scan.cookies.result (.of text start stop) =
        .ok (some (Cookie.list (.of text start stop))) ∧
      Advances (endOf text start stop) start
        ((Cookie.list (.of text start stop)).map Cookie.span)) ∧
    ∀ (e : Element) (list : WeightedList e.Result),
      (Scan.insert e.scan e.span list).result (.of text start stop) =
        .ok (some (list.insert e.reader text start stop)) ∧
      ∃ found : List (Weighted e.Result),
        list.insert e.reader text start stop = found.foldl WeightedList.push list ∧
        Advances (upTo text stop).length start (found.map Weighted.span) := by
  refine ⟨fun e => ⟨e.follows.result_of text start stop, fun a => Element.span_of_parse⟩,
    ⟨?_, ?_⟩, ⟨?_, ?_⟩, fun e list => ⟨?_, Weighted.exists_items e.reader list text start stop⟩⟩
  · have hrun := (Scan.follows_headers (.of text start stop)).run
    rwa [Cursor.window_of] at hrun
  · exact takesUp_header.many _ fun v hv => pos_le_endOf hv
  · rw [Scan.follows_cookies.result_of, Option.map_some, readCookies_fst]
  · exact Cookie.advances_list fun v hv => pos_le_endOf hv
  · have hcall := e.follows.calls e.lays e.span_layout
    have hinserts := Scan.inserts hcall list (.of text start stop)
    rwa [Scan.Inserts, Cursor.bytes_of] at hinserts

/-- A target before a NUL, found from an offset on. -/
theorem parse_in_bounds_of_url :
    Element.url.parse "xx/a/b?c=d\x00y".toUTF8.data.toList 2 none =
        some ⟨⟨2, 10⟩, none, 80, [⟨3, 4⟩, ⟨5, 6⟩], [⟨⟨7, 10⟩, ⟨7, 8⟩, some ⟨9, 10⟩⟩]⟩ ∧
      (Url.layout ⟨⟨2, 10⟩, none, 80, [⟨3, 4⟩, ⟨5, 6⟩],
        [⟨⟨7, 10⟩, ⟨7, 8⟩, some ⟨9, 10⟩⟩]⟩).Placed ∧
      10 ≤ endOf "xx/a/b?c=d\x00y".toUTF8.data.toList 2 none := by
  have hparse : Element.url.parse "xx/a/b?c=d\x00y".toUTF8.data.toList 2 none =
      some ⟨⟨2, 10⟩, none, 80, [⟨3, 4⟩, ⟨5, 6⟩], [⟨⟨7, 10⟩, ⟨7, 8⟩, some ⟨9, 10⟩⟩]⟩ := by
    decide +kernel
  obtain ⟨hplaced, _, _, _, hstop⟩ :=
    ((parse_in_bounds "xx/a/b?c=d\x00y".toUTF8.data.toList 2 none).1 .url).2 _ hparse
  exact ⟨hparse, hplaced, hstop⟩

end Recognition.Http

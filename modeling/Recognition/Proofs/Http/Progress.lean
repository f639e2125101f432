import Recognition.Proofs.Http.ItemList
import Recognition.Proofs.Http.Layout

namespace Recognition.Http

open Window

/-- From `lo` up to `hi`, ranges that are not empty lie one after the other. -/
def Advances (hi : Nat) : Nat → List Span → Prop
  | _, [] => True
  | lo, s :: later => lo ≤ s.start ∧ s.start < s.stop ∧ s.stop ≤ hi ∧ Advances hi s.stop later

namespace Advances

variable {lo lo' hi : Nat} {spans : List Span}

theorem mono (h : Advances hi lo spans) (hlo : lo' ≤ lo) : Advances hi lo' spans := by
  cases spans with
  | nil => trivial
  | cons s later =>
    obtain ⟨hstart, hwithin⟩ := h
    exact ⟨Nat.le_trans hlo hstart, hwithin⟩

end Advances

namespace Reader

variable {α : Type} {r : Reader α} {f : α → Layout} {span : α → Span} {w : Window} {hi : Nat}

/-- Each value takes up bytes of what is read for it. -/
def TakesUp (r : Reader α) (span : α → Span) : Prop :=
  ∀ {w v : Window} {a : α}, r.read w = some (a, v) →
    w.pos ≤ (span a).start ∧ (span a).start < (span a).stop ∧ (span a).stop ≤ v.pos

theorem Lays.takesUp (h : r.Lays f) (hspan : ∀ a, (f a).span = span a) : r.TakesUp span := by
  intro w v a hread
  have hlt := pos_lt (r.lt hread)
  rw [← hspan, h.span hread]
  exact ⟨Nat.le_refl _, hlt, Nat.le_refl _⟩

theorem TakesUp.many (h : r.TakesUp span) (w : Window) (hhi : ∀ v < w, v.pos ≤ hi) :
    Advances hi w.pos ((r.many w).1.map span) := by
  fun_induction r.many w with
  | case1 w hr => trivial
  | case2 w a v hr rest ih =>
    obtain ⟨hstart, hlt, hstop⟩ := h hr
    have hvw := r.lt hr
    have hlater := ih fun u hu => hhi u (Window.lt_of_lt_of_le hu (Window.le_of_lt hvw))
    exact ⟨hstart, hlt, Nat.le_trans hstop (hhi v hvw), hlater.mono hstop⟩

end Reader

open Reader

theorem pos_le_endOf {text : List UInt8} {start : Nat} {stop : Option Nat} {v : Window}
    (h : v < .of text start stop) : v.pos ≤ endOf text start stop := by
  have hsum := pos_add_length (Window.le_of_lt h)
  have hlength := Window.length_lt h
  rw [of_eq, length_bytesOf] at hlength
  rw [of_eq, length_bytesOf] at hsum
  simp only at hsum
  omega

theorem takesUp_header : header.TakesUp Header.span := lays_header.takesUp fun _ => rfl

namespace Cookie

theorem takesUp_next : next.TakesUp Cookie.span := by
  intro w v c hread
  obtain ⟨u, hu, hread⟩ := Option.bind_eq_some_iff.1 hread
  obtain ⟨hstart, hlt, hstop⟩ := lays_cookie.takesUp (fun _ => rfl) hread
  have huw := Window.le_trans (skip_le isSpace u)
    (Window.le_trans (Window.le_of_lt (eat?_lt hu)) (skip_le isSpace w))
  exact ⟨Nat.le_trans (pos_le huw) hstart, hlt, hstop⟩

theorem advances_list {w : Window} {hi : Nat} (hhi : ∀ v < w, v.pos ≤ hi) :
    Advances hi w.pos ((list w).map Cookie.span) := by
  rw [list]
  split
  · trivial
  · rename_i c v hc
    obtain ⟨hstart, hlt, hstop⟩ := lays_cookie.takesUp (fun _ => rfl) hc
    have hvw := Window.lt_of_lt_of_le (cookie.lt hc) (skip_le isSpace w)
    have hlater := takesUp_next.many v fun u hu =>
      hhi u (Window.lt_of_lt_of_le hu (Window.le_of_lt hvw))
    exact ⟨Nat.le_trans (pos_le (skip_le isSpace w)) hstart, hlt, Nat.le_trans hstop (hhi v hvw),
      hlater.mono hstop⟩

end Cookie

namespace Weighted

variable {α : Type} {r : Reader α} {w u : Window} {a : Weighted α}

theorem span_of_item? (h : item? r (itemStart w) = some (.ok (a, u))) :
    w.pos ≤ a.span.start ∧ a.span.start < a.span.stop ∧ a.span.stop = u.pos := by
  obtain ⟨_, _, _, hspan⟩ := exists_of_item? h
  rw [hspan]
  exact ⟨pos_le (itemStart_le w), pos_lt (item?_ok_lt h), rfl⟩

theorem sub_pos_le {pos : Nat} {bytes : List UInt8} (h : u < .cut pos bytes) :
    pos < u.pos ∧ u.pos - pos ≤ bytes.length := by
  have hpos : pos < u.pos := pos_lt h
  have hsum := pos_add_length (Window.le_of_lt h)
  have hcut : (cut pos bytes).rest.length ≤ bytes.length := (List.takeWhile_sublist _).length_le
  have hcutPos : (cut pos bytes).pos = pos := rfl
  omega

theorem advances_items (r : Reader α) (pos : Nat) (bytes : List UInt8) :
    Advances (pos + bytes.length) pos ((items r pos bytes).map Weighted.span) := by
  fun_induction items r pos bytes with
  | case1 pos bytes h => trivial
  | case2 pos bytes a u h ih =>
    obtain ⟨hstart, hlt, hstop⟩ := span_of_item? h
    obtain ⟨hpos, hle⟩ := sub_pos_le (Window.lt_of_lt_of_le (item?_ok_lt h) (itemStart_le _))
    have hend : u.pos + (bytes.drop (u.pos - pos)).length = pos + bytes.length := by
      rw [List.length_drop]
      omega
    rw [hend] at ih
    refine ⟨hstart, hlt, by omega, ?_⟩
    rw [hstop]
    exact ih
  | case3 pos bytes q h left next hnext => trivial
  | case4 pos bytes q h left next hnext ih =>
    obtain ⟨hpos, hle⟩ := sub_pos_le (Window.lt_of_lt_of_le (item?_error_lt h) (itemStart_le _))
    have hleft : left.length = bytes.length - (q.pos - pos) := List.length_drop
    have hnextLe : next.length ≤ left.length := (List.dropWhile_sublist _).length_le
    have hend : q.pos + (left.length - next.length) + next.length = pos + bytes.length := by omega
    rw [hend] at ih
    exact ih.mono (by omega)

theorem advances_accepted (r : Reader α) (text : List UInt8) (start : Nat) (stop : Option Nat) :
    Advances (upTo text stop).length start
      ((items r start ((upTo text stop).drop start)).map Weighted.span) := by
  by_cases hle : start ≤ (upTo text stop).length
  · have hitems := advances_items r start ((upTo text stop).drop start)
    rwa [List.length_drop, Nat.add_sub_of_le hle] at hitems
  · rw [List.drop_eq_nil_of_le (Nat.le_of_not_le hle), items_nil]
    trivial

theorem exists_items (r : Reader α) (list : WeightedList α) (text : List UInt8) (start : Nat)
    (stop : Option Nat) : ∃ found : List (Weighted α),
      list.insert r text start stop = found.foldl WeightedList.push list ∧
        Advances (upTo text stop).length start (found.map Weighted.span) :=
  ⟨_, rfl, advances_accepted r text start stop⟩

end Weighted

end Recognition.Http

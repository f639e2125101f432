import Recognition.Proofs.Http.Window

namespace Recognition.Http

namespace Window

variable {u v w : Window} {p : UInt8 → Bool} {e n : Nat}

/-- `v` is `w` after bytes that are no line feeds. -/
def SameLine (v w : Window) : Prop :=
  ∃ line, w.rest = line ++ v.rest ∧ v.pos = w.pos + line.length ∧ Byte.lf ∉ line

namespace SameLine

theorem refl (w : Window) : SameLine w w := ⟨[], by simp⟩

theorem trans (huv : SameLine u v) (hvw : SameLine v w) : SameLine u w := by
  obtain ⟨first, hfirst, hv, hlf⟩ := hvw
  obtain ⟨second, hsecond, hu, hlf'⟩ := huv
  refine ⟨first ++ second, ?_, ?_, ?_⟩
  · rw [hfirst, hsecond, List.append_assoc]
  · rw [hu, hv, List.length_append, Nat.add_assoc]
  · simp [hlf, hlf']

theorem drop (h : Byte.lf ∉ w.rest.take n) : SameLine (w.drop n) w :=
  ⟨w.rest.take n, (List.take_append_drop n w.rest).symm, by simp [Window.drop], h⟩

theorem skip_of_notMem (h : Byte.lf ∉ w.rest.takeWhile p) : SameLine (w.skip p) w :=
  .drop (by rwa [take_count])

theorem skip (hp : p Byte.lf = false) (w : Window) : SameLine (w.skip p) w := by
  refine .skip_of_notMem fun hmem => ?_
  have hlf := List.mem_takeWhile_imp hmem
  rw [hp] at hlf
  cases hlf

theorem run? (hp : p Byte.lf = false) {s : Span} (h : w.run? p = some (s, v)) : SameLine v w := by
  rw [Window.run?] at h
  split at h
  · cases h
  · obtain ⟨_, rfl⟩ := Prod.mk.inj (Option.some.inj h)
    exact .skip hp w

theorem eat? {b : UInt8} (hb : b ≠ Byte.lf) (h : w.eat? b = some v) : SameLine v w := by
  rw [Window.eat?] at h
  split at h
  · rename_i hhead
    obtain ⟨bs, hbs⟩ := List.head?_eq_some_iff.1 hhead
    obtain rfl := Option.some.inj h
    exact .drop (by simp [hbs, hb.symm])
  · cases h

end SameLine

theorem skipInLine?_eq_some :
    w.skipInLine? = some v ↔
      v = w.skip isSpace ∧ Byte.lf ∉ w.rest.takeWhile isSpace ∧ v.rest ≠ [] := by
  simp only [skipInLine?]
  split
  · rename_i h
    simp only [reduceCtorEq, false_iff]
    rintro ⟨rfl, hlf, hrest⟩
    simp [hlf, hrest] at h
  · rename_i h
    simp only [Bool.or_eq_true, decide_eq_true_eq, List.isEmpty_iff, not_or] at h
    simp only [Option.some.injEq]
    constructor
    · rintro rfl
      exact ⟨rfl, h⟩
    · rintro ⟨rfl, _⟩
      rfl

theorem SameLine.skipInLine? (h : w.skipInLine? = some v) : SameLine v w := by
  obtain ⟨rfl, hlf, _⟩ := skipInLine?_eq_some.1 h
  exact .skip_of_notMem hlf

/-- The line that a window begins in ends after its line feed, or with the window if there is none.
A carriage return before the line feed belongs to the line break, but does not move its end. -/
inductive EndsLine (w : Window) : Nat → Prop
  | lineBreak {line rest : List UInt8} (hsplit : w.rest = line ++ Byte.lf :: rest)
    (hline : Byte.lf ∉ line) : EndsLine w (w.pos + line.length + 1)
  | stop (h : Byte.lf ∉ w.rest) : EndsLine w (w.pos + w.rest.length)

theorem skipLine_of_split {line rest : List UInt8} (hsplit : w.rest = line ++ Byte.lf :: rest)
    (hline : Byte.lf ∉ line) : w.skipLine = ⟨w.pos + line.length + 1, rest⟩ := by
  have hcount : w.count (· != Byte.lf) = line.length := by
    have hall : ∀ b ∈ line, (b != Byte.lf) = true := by
      intro b hb
      simp only [bne_iff_ne, ne_eq]
      rintro rfl
      exact hline hb
    rw [count, hsplit, List.takeWhile_append_of_pos hall]
    simp
  rw [skipLine, skip, drop_drop, hcount, drop, hsplit]
  simp [Nat.add_assoc, ← List.drop_drop]

theorem skipLine_of_notMem (h : Byte.lf ∉ w.rest) :
    w.skipLine = ⟨w.pos + w.rest.length, []⟩ := by
  have hcount : w.count (· != Byte.lf) = w.rest.length := by
    rw [count, List.takeWhile_eq_self_iff.2]
    intro b hb
    simp only [bne_iff_ne, ne_eq]
    rintro rfl
    exact h hb
  rw [skipLine, skip, drop_drop, hcount, drop]
  simp

theorem endsLine_iff : w.EndsLine e ↔ e = w.skipLine.pos := by
  constructor
  · intro h
    cases h with
    | lineBreak hsplit hline => rw [skipLine_of_split hsplit hline]
    | stop h => rw [skipLine_of_notMem h]
  · rintro rfl
    by_cases hlf : Byte.lf ∈ w.rest
    · obtain ⟨line, rest, hsplit, hline⟩ := List.eq_append_cons_of_mem hlf
      rw [skipLine_of_split hsplit hline]
      exact .lineBreak hsplit hline
    · rw [skipLine_of_notMem hlf]
      exact .stop hlf

theorem endsLine_skipLine (w : Window) : w.EndsLine w.skipLine.pos := endsLine_iff.2 rfl

namespace EndsLine

theorem of_nil (h : w.rest = []) : w.EndsLine w.pos := by
  have hends : w.EndsLine (w.pos + w.rest.length) := .stop (by simp [h])
  simpa [h] using hends

theorem pos_lt (h : w.EndsLine e) (hrest : w.rest ≠ []) : w.pos < e := by
  cases h with
  | lineBreak => omega
  | stop =>
    have := List.length_pos_iff.2 hrest
    omega

theorem of_sameLine (h : v.EndsLine e) (hvw : SameLine v w) : w.EndsLine e := by
  obtain ⟨before, hw, hv, hbefore⟩ := hvw
  cases h with
  | @lineBreak line rest hsplit hline =>
    have hend : v.pos + line.length + 1 = w.pos + (before ++ line).length + 1 := by
      rw [hv, List.length_append, Nat.add_assoc w.pos]
    rw [hend]
    exact .lineBreak (by rw [hw, hsplit, List.append_assoc]) (by simp [hbefore, hline])
  | stop h =>
    have hend : v.pos + v.rest.length = w.pos + w.rest.length := by
      rw [hv, hw, List.length_append, Nat.add_assoc]
    rw [hend]
    exact .stop (by simp [hw, hbefore, h])

end EndsLine

theorem SameLine.endsLine_iff (h : SameLine v w) : v.EndsLine e ↔ w.EndsLine e := by
  have hend : v.skipLine.pos = w.skipLine.pos :=
    Window.endsLine_iff.1 ((endsLine_skipLine v).of_sameLine h)
  rw [Window.endsLine_iff, Window.endsLine_iff, hend]

end Window

namespace Reader

variable {α : Type} {r : Reader α}

/-- Reads within one line. -/
structure KeepsLine (r : Reader α) : Prop where
  sameLine : ∀ {w v : Window} {a : α}, r.read w = some (a, v) → v.SameLine w

theorem KeepsLine.many (h : r.KeepsLine) (w : Window) : (r.many w).2.SameLine w := by
  fun_induction r.many w with
  | case1 w hr => exact .refl w
  | case2 w a v hr rest ih => exact ih.trans (h.sameLine hr)

theorem KeepsLine.optional (h : r.KeepsLine) (w : Window) : (r.optional w).2.SameLine w := by
  rw [Reader.optional]
  split
  · exact .refl w
  · exact h.sameLine ‹_›

theorem keepsLine_runAfter {b : UInt8} (hb : b ≠ Byte.lf) {p : UInt8 → Bool}
    (hp : p Byte.lf = false) : (runAfter b p).KeepsLine := by
  refine ⟨fun h => ?_⟩
  obtain ⟨u, hu, hrun⟩ := Option.map_eq_some_iff.1 h
  obtain ⟨_, rfl⟩ := Prod.mk.inj hrun
  exact (Window.SameLine.skip hp u).trans (.eat? hb hu)

end Reader

end Recognition.Http

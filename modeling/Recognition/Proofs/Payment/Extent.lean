import Recognition.Proofs.Mirror.Payment
import Recognition.Proofs.Payment.Reading

namespace Recognition.Payment

variable {r : Reading} {sep : Separator} {pos next start : Nat}

theorem Reading.head?_bounds {letters digits : List Char}
    (h : r.head? pos = some (letters, digits, next)) : pos < next ∧ next ≤ r.stop := by
  simp only [head?, Option.bind_eq_bind, Option.bind_eq_some_iff, Option.pure_def] at h
  obtain ⟨⟨a, p⟩, ha, ⟨b, q⟩, hb, ⟨c, s⟩, hc, ⟨d, t⟩, hd, h⟩ := h
  obtain ⟨-, hrest⟩ := Prod.mk.inj (Option.some.inj h)
  obtain ⟨-, rfl⟩ := Prod.mk.inj hrest
  have := letter?_bounds ha
  have := letter?_bounds hb
  have := digit?_bounds hc
  have := digit?_bounds hd
  omega

theorem Reading.skip_bounds (sep : Separator) (hpos : pos ≤ r.stop) :
    pos ≤ (r.separator? sep pos).getD pos ∧ (r.separator? sep pos).getD pos ≤ r.stop := by
  cases hsep : r.separator? sep pos with
  | none => exact ⟨Nat.le_refl _, hpos⟩
  | some next =>
    have := separator?_bounds hsep
    exact ⟨Nat.le_of_lt this.1, Nat.le_of_lt this.2⟩

theorem Iban.readBban_bounds (sep : Separator) (room : Nat) (hpos : pos ≤ r.stop) :
    pos ≤ (readBban r sep room pos).2 ∧ (readBban r sep room pos).2 ≤ r.stop := by
  fun_induction readBban r sep room pos with
  | case1 pos => exact ⟨Nat.le_refl _, hpos⟩
  | case2 pos room next hnext ih =>
    have hskip := Reading.separator?_bounds hnext
    obtain ⟨hle, hstop⟩ := ih (Nat.le_of_lt hskip.2)
    exact ⟨Nat.le_trans (Nat.le_of_lt hskip.1) hle, hstop⟩
  | case3 pos room hnone halnum => exact ⟨Nat.le_refl _, hpos⟩
  | case4 pos room hnone c next halnum rest ih =>
    have hread := Reading.alnum?_bounds halnum
    obtain ⟨hle, hstop⟩ := ih hread.2
    exact ⟨Nat.le_trans (Nat.le_of_lt hread.1) hle, hstop⟩

theorem Iban.span_of_read? {n : Iban} (h : read? r sep start = some n) :
    n.span.start = start ∧ start < n.span.stop ∧ n.span.stop ≤ r.stop := by
  obtain ⟨pos, hhead, hbban, -, hstart, -⟩ := exists_of_read? h
  have hpos := Reading.head?_bounds hhead
  have hstop := readBban_bounds sep (room n.country) hpos.2
  rw [hbban] at hstop
  exact ⟨hstart, Nat.lt_of_lt_of_le hpos.1 hstop.1, hstop.2⟩

namespace CreditorReference

theorem groupStart_bounds (sep : Separator) (count : Nat) (hpos : pos ≤ r.stop) :
    pos ≤ groupStart r sep count pos ∧ groupStart r sep count pos ≤ r.stop := by
  rw [groupStart]
  split
  · exact Reading.skip_bounds sep hpos
  · exact ⟨Nat.le_refl _, hpos⟩

theorem readFrom_bounds {room count stop : Nat} {cs : List Char} (hpos : pos ≤ r.stop)
    (h : readFrom r sep room count pos = some (cs, stop)) : pos ≤ stop ∧ stop ≤ r.stop := by
  have hgroup := groupStart_bounds sep count hpos
  induction room generalizing count pos cs with
  | zero =>
    rw [readFrom_zero] at h
    split at h
    · obtain ⟨-, rfl⟩ := Prod.mk.inj (Option.some.inj h)
      exact hgroup
    · cases h
  | succ room ih =>
    rw [readFrom_succ] at h
    split at h
    · obtain ⟨-, rfl⟩ := Prod.mk.inj (Option.some.inj h)
      exact hgroup
    · rename_i x hx
      obtain ⟨⟨cs', stop'⟩, hread, hr⟩ := Option.map_eq_some_iff.1 h
      obtain ⟨-, rfl⟩ := Prod.mk.inj hr
      have hnext := Reading.alnum?_bounds hx
      obtain ⟨hle, hstop⟩ := ih hnext.2 hread (groupStart_bounds sep (count + 1) hnext.2)
      exact ⟨Nat.le_trans hgroup.1 (Nat.le_trans (Nat.le_of_lt hnext.1) hle), hstop⟩

theorem span_of_read? {n : CreditorReference} (h : read? r sep start = some n) :
    n.span.start = start ∧ start < n.span.stop ∧ n.span.stop ≤ r.stop := by
  obtain ⟨pos, cs, hhead, hread, -, -, hstart, -⟩ := exists_of_read? h
  have hpos := Reading.head?_bounds hhead
  have hstop := readFrom_bounds hpos.2 hread
  exact ⟨hstart, Nat.lt_of_lt_of_le hpos.1 hstop.1, hstop.2⟩

end CreditorReference

namespace SiReference

theorem digitsFrom_bounds (hpos : pos ≤ r.stop) :
    pos ≤ (digitsFrom r pos).2 ∧ (digitsFrom r pos).2 ≤ r.stop := by
  fun_induction digitsFrom r pos with
  | case1 pos hnone => exact ⟨Nat.le_refl _, hpos⟩
  | case2 pos c next hdigit rest ih =>
    have hread := Reading.digit?_bounds hdigit
    obtain ⟨hle, hstop⟩ := ih hread.2
    exact ⟨Nat.le_trans (Nat.le_of_lt hread.1) hle, hstop⟩

theorem part?_bounds {p : Part} (hpos : pos ≤ r.stop) (h : part? r pos = some p) :
    pos ≤ p.span.stop ∧ p.span.stop ≤ r.stop := by
  have hdigits := digitsFrom_bounds hpos
  simp only [part?] at h
  split at h
  · cases h
  · obtain rfl := Option.some.inj h
    exact hdigits

theorem dash?_bounds (h : dash? r pos = some next) : pos < next ∧ next ≤ r.stop := by
  obtain ⟨⟨c, n⟩, hc, rfl⟩ := Option.map_eq_some_iff.1 h
  exact Reading.char?_bounds (Option.filter_eq_some_iff.1 hc).1

theorem partsFrom_bounds (count : Nat) (hpos : pos ≤ r.stop) :
    ∀ p ∈ partsFrom r count pos, pos ≤ p.span.stop ∧ p.span.stop ≤ r.stop := by
  induction count generalizing pos with
  | zero => simp [partsFrom]
  | succ count ih =>
    rw [partsFrom]
    split
    · simp
    · rename_i p hp
      have hfirst := part?_bounds hpos hp
      intro q hq
      rcases List.mem_cons.1 hq with rfl | hq
      · exact hfirst
      · split at hq
        · cases hq
        · rename_i next hdash
          have hnext := dash?_bounds hdash
          have := ih hnext.2 q hq
          omega

theorem span_of_read? {n : SiReference} (h : read? r sep start = some n) :
    n.span.start = start ∧ start < n.span.stop ∧ n.span.stop ≤ r.stop := by
  simp only [read?, Option.bind_eq_bind, Option.bind_eq_some_iff] at h
  obtain ⟨⟨letters, model, pos⟩, hhead, h⟩ := h
  have hpos := Reading.head?_bounds hhead
  split at h
  · cases h
  · split at h
    · obtain rfl := Option.some.inj h
      exact ⟨rfl, hpos⟩
    · obtain rfl := Option.some.inj h
      have hskip := Reading.skip_bounds sep hpos.2
      have hparts := partsFrom_bounds 3 hskip.2
      -- Without a part the reference ends after the model, be there a separator or not.
      cases hlast : (partsFrom r 3 ((r.separator? sep pos).getD pos)).getLast? with
      | none => simpa [hlast] using hpos
      | some p =>
        obtain ⟨hle, hstop⟩ := hparts p (List.mem_of_getLast? hlast)
        exact ⟨rfl, Nat.lt_of_lt_of_le hpos.1 (Nat.le_trans hskip.1 hle), hstop⟩

end SiReference

end Recognition.Payment

import Recognition.Proofs.Mirror.Payment
import Recognition.Proofs.Truncation.Source

namespace Recognition

namespace Recognizer

variable {α : Type}

/-- What is recognized tells no more than what the source holds up to the bound. -/
structure ReadsToBound (r : Recognizer α) (flags : Flags) : Prop where
  congr : ∀ {src dst : Source} {e f start : Nat} {stop stop' : Option Nat},
    src.AlikeUpTo e dst f → start ≤ f → src.limit stop = e → dst.limit stop' = f →
      r.recognize dst start stop' flags = r.recognize src start stop flags
  none_of_lt : ∀ {src : Source} {start : Nat} {stop : Option Nat}, src.limit stop < start →
    r.recognize src start stop flags = none

/-- What is recognized at `start` does not change with what is after the bound or after a NUL. -/
structure StopsAtBound (r : Recognizer α) (src : Source) (start : Nat) (flags : Flags) : Prop where
  /-- The text may be cut at the bound. -/
  eq_take : ∀ e, src.IsCut e →
    r.recognize src start (some e) flags = r.recognize (src.take e) start none flags
  /-- A NUL before the bound may be taken for it. -/
  eq_textEnd : ∀ stop,
    r.recognize src start stop flags =
      r.recognize src start (some (src.textEnd start stop)) flags
  /-- The text may be cut at the bound or at a NUL before. -/
  eq_take_textEnd : ∀ stop, src.IsCut (src.limit stop) →
    r.recognize src start stop flags =
      r.recognize (src.take (src.textEnd start stop)) start none flags

theorem ReadsToBound.of_image [MapOffsets α] {r : Recognizer α} {flags : Flags}
    (hid : ∀ x : α, mapOffsets id x = x)
    (himage : ∀ {src dst : Source} {e f start : Nat} {stop stop' : Option Nat},
      src.AlikeUpTo e dst f → start ≤ f → src.limit stop = e → dst.limit stop' = f →
        r.recognize dst (id start) stop' flags =
          (r.recognize src start stop flags).map (mapOffsets id))
    (hnone : ∀ {src : Source} {start : Nat} {stop : Option Nat}, src.limit stop < start →
      r.recognize src start stop flags = none) : r.ReadsToBound flags where
  congr halike hstart hlimit hlimit' := by
    have hsame := himage halike hstart hlimit hlimit'
    have hmap : mapOffsets id = (id : α → α) := funext hid
    rwa [hmap, Option.map_id] at hsame
  none_of_lt := hnone

theorem ReadsToBound.stopsAtBound {r : Recognizer α} {flags : Flags} (h : r.ReadsToBound flags)
    (src : Source) (start : Nat) : r.StopsAtBound src start flags := by
  have eq_take (e : Nat) (he : src.IsCut e) :
      r.recognize src start (some e) flags = r.recognize (src.take e) start none flags := by
    have hlimit : src.limit (some e) = e := Nat.min_eq_left he.le_size
    have hlimit' : (src.take e).limit none = e := Source.size_take he
    rcases Nat.lt_or_ge e start with hlt | hle
    · -- Past the bound the two need not be alike, but nothing is recognized there.
      rw [h.none_of_lt (hlimit.symm ▸ hlt), h.none_of_lt (hlimit'.symm ▸ hlt)]
    · exact (h.congr (Source.alikeUpTo_take he) hle hlimit hlimit').symm
  have eq_textEnd (stop : Option Nat) : r.recognize src start stop flags =
      r.recognize src start (some (src.textEnd start stop)) flags := by
    have halike := src.alikeUpTo_textEnd start stop
    have hlimit : src.limit (some (src.textEnd start stop)) = src.textEnd start stop :=
      Nat.min_eq_left halike.le_size'
    rcases Nat.lt_or_ge (src.textEnd start stop) start with hlt | hle
    · have hlt' : src.limit stop < start := by
        rcases src.textEnd_eq_or start stop with heq | ⟨_, hge, _⟩
        · rwa [← heq]
        · omega
      rw [h.none_of_lt hlt', h.none_of_lt (hlimit.symm ▸ hlt)]
    · exact (h.congr halike hle rfl hlimit).symm
  refine ⟨eq_take, eq_textEnd, ?_⟩
  intro stop hstop
  rw [eq_textEnd stop]
  exact eq_take _ (Source.isCut_textEnd hstop)

end Recognizer

theorem Grammar.readsToBound (g : Grammar) (number : Nat) (flags : Flags) :
    (g.rule number).ReadsToBound flags := by
  refine .of_image Match.mapOffsets_id ?_ ?_
  · intro src dst e f start stop stop' halike hstart hlimit hlimit'
    exact g.rule_image halike.mirrors (.inr halike.mirrorsLines) hstart hlimit hlimit'
  · intro src start stop hlt
    exact if_neg (Nat.not_le_of_lt hlt)

namespace Payment

theorem Reading.head?_eq_none {r : Reading} {pos : Nat} (h : r.stop ≤ pos) :
    r.head? pos = none := by
  have hchar : r.char? pos = none := by
    rw [char?, Source.glyph?_eq_none h]
    rfl
  have hletter : r.letter? pos = none := by
    rw [letter?, hchar]
    rfl
  rw [head?, hletter]
  rfl

variable {sep : Separator} (hsep : sep.Offered) (flags : Flags)

include hsep

theorem Separator.Offered.upTo {src dst : Source} {e f : Nat} (h : src.AlikeUpTo e dst f) :
    sep.MirrorsUpTo src e dst f id (· ≤ f) flags :=
  hsep.mirrorsUpTo h.mirrors h.le_size h.le_size' h.mirrorsLines flags

theorem Reading.readsToBound {α : Type} [MapOffsets α] {read? : Reading → Nat → Option α}
    {span : α → Span} (hread : sep.MirrorsRead read?) (hid : ∀ x : α, mapOffsets id x = x)
    (hnone : ∀ {r : Reading} {pos : Nat}, r.head? pos = none → read? r pos = none) :
    (Reading.recognizer read? span).ReadsToBound flags := by
  refine .of_image hid ?_ ?_
  · intro src dst e f start stop stop' halike hstart hlimit hlimit'
    exact hread.recognizer_image halike.mirrors (hsep.upTo flags halike) hstart hlimit hlimit'
  · intro src start stop hlt
    exact hnone (Reading.head?_eq_none (Nat.le_of_lt hlt))

theorem Iban.readsToBound : (Iban.recognizer sep).ReadsToBound flags := by
  refine Reading.readsToBound hsep flags mirrorsRead (fun _ => rfl) ?_
  intro r pos h
  rw [read?, h]
  rfl

theorem CreditorReference.readsToBound :
    (CreditorReference.recognizer sep).ReadsToBound flags := by
  refine Reading.readsToBound hsep flags mirrorsRead (fun _ => rfl) ?_
  intro r pos h
  rw [read?, h]
  rfl

theorem SiReference.readsToBound : (SiReference.recognizer sep).ReadsToBound flags := by
  refine Reading.readsToBound hsep flags mirrorsRead SiReference.mapOffsets_id ?_
  intro r pos h
  rw [read?, h]
  rfl

end Payment

/-- Rules, account numbers and payment references take no notice of what is after the bound or after
a NUL, in any source and wherever they are looked for. -/
theorem recognized_to_bound (src : Source) (start : Nat) (flags : Flags) :
    (∀ (g : Grammar) (number : Nat), (g.rule number).StopsAtBound src start flags) ∧
      ∀ sep : Payment.Separator, sep.Offered →
        (Payment.Iban.recognizer sep).StopsAtBound src start flags ∧
        (Payment.CreditorReference.recognizer sep).StopsAtBound src start flags ∧
        (Payment.SiReference.recognizer sep).StopsAtBound src start flags := by
  constructor
  · intro g number
    exact (g.readsToBound number flags).stopsAtBound src start
  · intro sep hsep
    refine ⟨?_, ?_, ?_⟩
    · exact (Payment.Iban.readsToBound hsep flags).stopsAtBound src start
    · exact (Payment.CreditorReference.readsToBound hsep flags).stopsAtBound src start
    · exact (Payment.SiReference.readsToBound hsep flags).stopsAtBound src start

/-- The bound takes the `;` from a reference, of which the `&` is read alone then. -/
theorem recognized_to_bound_in_reference :
    (Source.sgml ['&', 'l', 't', ';']).IsCut 3 ∧
      Grammar.match? ⟨.ascii, #[.any]⟩ 0 (.sgml ['&', 'l', 't', ';']) 0 (some 3) .none =
        some (.leaf 0 1) := by
  have hcut : (Source.sgml ['&', 'l', 't', ';']).IsCut 3 :=
    ⟨['&', 'l', 't'], [';'], rfl, by decide⟩
  have hbound := (recognized_to_bound (.sgml ['&', 'l', 't', ';']) 0 .none).1 ⟨.ascii, #[.any]⟩ 0
  have hshort : Grammar.match? ⟨.ascii, #[.any]⟩ 0 (.sgml ['&', 'l', 't']) 0 none .none =
      some (.leaf 0 1) := by decide +kernel
  refine ⟨hcut, ?_⟩
  exact (hbound.eq_take 3 hcut).trans hshort

end Recognition

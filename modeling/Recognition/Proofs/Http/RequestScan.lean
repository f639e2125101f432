import Recognition.Proofs.Http.Scanner

namespace Recognition.Http

open Window

namespace Scan

def number (s : Span) : Scan Nat := do
  let digits ← slice s
  require (!digits.isEmpty && digits.all isDigit)
  lift (decimal digits)

def numberOrZero : Option Span → Scan Nat
  | some s => number s
  | none => pure 0

def version (major : Span) (minor : Option Span) : Scan Nat := do
  let m ← number major
  let n ← numberOrZero minor
  require (m * 256 + n ≤ Protocol.maxVersion)
  return m * 256 + n

/-- Two numbers of bytes of a class each, or one, and the version they name. -/
def numbers (p q : UInt8 → Bool) : Scan (Span × Option Span × Nat) := do
  let major ← skipWhile p
  let minor ← optional (runAfter Byte.dot q)
  return (major, minor, ← version major minor)

def protocol : Scan Protocol := do
  let start ← here
  let name ← skipWhile fun b => !isSpace b && b != Byte.slash
  eat Byte.slash
  let (major, minor, v) ← numbers (fun b => !isSpace b && b != Byte.dot) fun b => !isSpace b
  return ⟨⟨start, ← here⟩, name, major, minor, v⟩

def tail : Scan (Option Protocol) := do
  if ← endLine then return none
  else ifFound (protocol.call Protocol.span) (fun p => do skipLine; return some p) (pure none)

def request : Scan Request := do
  let start ← here
  skipInLine
  let verb ← skipWhile fun b => !isSpace b
  skipInLine
  let target ← url.call Url.span
  let p ← tail
  return ⟨⟨start, ← here⟩, verb, target, p⟩

def header : Scan Header := do
  let start ← here
  let first ← peek
  require (!isSpace first)
  let name ← skipWhile fun b => b != Byte.colon && !isSpace b
  skipInLine
  eat Byte.colon
  let afterColon ← here
  let val ← headerValue
  return ⟨⟨start, ← here⟩, name, val.getD (.empty afterColon)⟩

variable {c : Cursor} {v : Window}

theorem followsAt_number {s : Span} (hv : v ≤ c.window) (hne : c.window.rest ≠ [])
    (hle : s.start ≤ s.stop) (hstart : c.pos ≤ s.start) (hstop : s.stop ≤ v.pos) :
    FollowsAt (c.moveTo v.pos) (number s)
      ((Protocol.number? (c.window.slice s)).map fun n => (n, v)) := by
  have hend := pos_add_length hv
  have hslice : Checked.slice c.text s = .ok (c.window.slice s) :=
    Cursor.slice_eq hne hle hstart (by rw [Cursor.window_pos] at hend; omega)
  by_cases hdigits : c.window.slice s ≠ [] ∧ (c.window.slice s).all isDigit = true
  · have hdecimal := decimal_eq hdigits.2
    rw [Protocol.number?, if_pos hdigits]
    refine .of_le ?_ (by rw [Cursor.window_moveTo hv]; exact Window.le_refl v)
    simp [number, slice, lift, require, Bind.bind, Pure.pure, hslice, hdecimal, hdigits, Except.map]
  · rw [Protocol.number?, if_neg hdigits]
    have hrequire : (!(c.window.slice s).isEmpty && (c.window.slice s).all isDigit) = false := by
      simpa [Bool.and_eq_false_iff, List.isEmpty_iff, or_iff_not_imp_left] using hdigits
    exact .of_none
      (by simp [number, slice, lift, require, fail, Bind.bind, hslice, hrequire, Except.map])

theorem followsAt_version {major : Span} {minor : Option Span} (hv : v ≤ c.window)
    (hne : c.window.rest ≠ []) (hmajor : major.start ≤ major.stop) (hstart : c.pos ≤ major.start)
    (hstop : major.stop ≤ v.pos)
    (hminor : ∀ s, minor = some s → s.start ≤ s.stop ∧ c.pos ≤ s.start ∧ s.stop ≤ v.pos) :
    FollowsAt (c.moveTo v.pos) (version major minor)
      ((Protocol.version? (c.window.slice major) (minor.map c.window.slice)).map
        fun n => (n, v)) := by
  have hle : v ≤ (c.moveTo v.pos).window := by
    rw [Cursor.window_moveTo hv]
    exact Window.le_refl v
  have hrunMajor := (followsAt_number hv hne hmajor hstart hstop).run
  -- A number that is missing counts as zero and cuts nothing out of the text.
  have hrunMinor : numberOrZero minor (c.moveTo v.pos) =
      .ok ((((minor.map c.window.slice).map Protocol.number?).getD (some 0)).map
        fun n => (n, v.pos)) := by
    cases hm : minor with
    | none => rfl
    | some s =>
      obtain ⟨hs, hsstart, hsstop⟩ := hminor s hm
      have hrun := (followsAt_number hv hne hs hsstart hsstop).run
      rw [Option.map_map] at hrun
      exact hrun
  rw [Protocol.version?]
  cases hm : Protocol.number? (c.window.slice major) with
  | none => exact .of_none (by simp [version, Bind.bind, hrunMajor, hm])
  | some m =>
    cases hn : ((minor.map c.window.slice).map Protocol.number?).getD (some 0) with
    | none =>
      rw [hn] at hrunMinor
      exact .of_none (by simp [version, Bind.bind, hrunMajor, hrunMinor, hm])
    | some n =>
      rw [hn] at hrunMinor
      by_cases hmax : m * 256 + n ≤ Protocol.maxVersion
      · simp only [Option.bind_eq_bind, Option.bind_some, if_pos hmax, Option.map_some]
        refine .of_le ?_ hle
        simp [version, require, Bind.bind, Pure.pure, hrunMajor, hrunMinor, hm, hmax]
      · simp only [Option.bind_eq_bind, Option.bind_some, if_neg hmax, Option.map_none]
        apply FollowsAt.of_none
        simp [version, require, fail, Bind.bind, hrunMajor, hrunMinor, hm, hmax]

def readNumbers? (p q : UInt8 → Bool) (w v : Window) :
    Option ((Span × Option Span × Nat) × Window) :=
  let (minor, y) := (Reader.runAfter Byte.dot q).optional (v.skip p)
  (Protocol.version? (w.slice (v.run p).1) (minor.map w.slice)).map
    fun n => (((v.run p).1, minor, n), y)

theorem followsAt_numbers (p q : UInt8 → Bool) (hv : v ≤ c.window) (hne : c.window.rest ≠ []) :
    FollowsAt (c.moveTo v.pos) (numbers p q) (readNumbers? p q c.window v) := by
  have hx := Window.le_trans (skip_le p v) hv
  have hyx := Reader.optional_le (Reader.runAfter Byte.dot q) (v.skip p)
  have hy := Window.le_trans hyx hx
  have hrow := (Reader.laysAfter_runAfter Byte.dot q).row_optional (v.skip p)
  have hmajor := ((follows_skipWhile p).followsAt hv).run
  have hafter : (v.run p).2 = v.skip p := rfl
  have hminor := ((follows_runAfter Byte.dot q).optional.followsAt hx).run
  rw [readNumbers?]
  generalize (Reader.runAfter Byte.dot q).optional (v.skip p) = read at hyx hy hrow hminor
  obtain ⟨minor, y⟩ := read
  -- The second number lies between the dot and the end, so it may be cut out of the text.
  have hminorBounds :
      ∀ s, minor = some s → s.start ≤ s.stop ∧ c.pos ≤ s.start ∧ s.stop ≤ y.pos := by
    rintro s rfl
    have hwithin := hrow.within (.leaf s) (by simp)
    have hle := (hrow.placed (.leaf s) (by simp)).le
    exact ⟨hle, Nat.le_trans (pos_le hx) (Nat.le_of_add_right_le hwithin.1), hwithin.2⟩
  have hversion : FollowsAt (c.moveTo y.pos) (version (v.run p).1 minor) _ :=
    followsAt_version hy hne (pos_le (skip_le p v)) (pos_le hv) (pos_le hyx) hminorBounds
  have hrun := hversion.run
  show FollowsAt _ _ ((Protocol.version? _ _).map _)
  cases hn : Protocol.version? (c.window.slice (v.run p).1) (minor.map c.window.slice) with
  | none =>
    rw [hn] at hrun
    exact .of_none (by simp [numbers, Bind.bind, hmajor, hafter, hminor, hrun])
  | some n =>
    rw [hn] at hrun
    have hle : y ≤ (c.moveTo v.pos).window := by
      rw [Cursor.window_moveTo hv]
      exact Window.le_trans hyx (skip_le p v)
    exact .of_le (by simp [numbers, Bind.bind, Pure.pure, hmajor, hafter, hminor, hrun]) hle

theorem follows_protocol : Follows protocol Http.protocol.read := by
  intro c
  have hname := (follows_skipWhile (fun b => !isSpace b && b != Byte.slash) c).run
  have hv := skip_le (fun b => !isSpace b && b != Byte.slash) c.window
  have hslash := ((follows_eat Byte.slash).followsAt hv).run
  cases hu : (c.window.skip fun b => !isSpace b && b != Byte.slash).eat? Byte.slash with
  | none =>
    have hread : Http.protocol.read c.window = none := by simp [Http.protocol, run, hu]
    rw [hread]
    exact .of_none (by simp [protocol, here, Bind.bind, hname, hslash, run, hu])
  | some u =>
    have hlt := Window.lt_of_lt_of_le (eat?_lt hu) hv
    have hne : c.window.rest ≠ [] := by
      rintro hnil
      simpa [hnil] using length_lt hlt
    have hnumbers := followsAt_numbers (fun b => !isSpace b && b != Byte.dot)
      (fun b => !isSpace b) (Window.le_of_lt hlt) hne
    have hrun := hnumbers.run
    have hread : Http.protocol.read c.window = (readNumbers?
        (fun b => !isSpace b && b != Byte.dot) (fun b => !isSpace b) c.window u).map
          fun x => (⟨c.window.spanTo x.2, (c.window.run fun b => !isSpace b && b != Byte.slash).1,
            x.1.1, x.1.2.1, x.1.2.2⟩, x.2) := by
      simp only [Http.protocol, readNumbers?, run, hu, Option.bind_eq_bind, Option.bind_some]
      cases Protocol.version? _ _ <;> rfl
    rw [hread]
    cases hx : readNumbers? (fun b => !isSpace b && b != Byte.dot) (fun b => !isSpace b)
      c.window u with
    | none =>
      rw [hx] at hrun
      exact .of_none (by simp [protocol, here, Bind.bind, hname, hslash, run, hu, hrun])
    | some x =>
      obtain ⟨⟨major, minor, n⟩, y⟩ := x
      have hle := hnumbers.le hx
      rw [Cursor.window_moveTo (Window.le_of_lt hlt)] at hle
      rw [hx] at hrun
      refine .of_le ?_ (Window.le_trans hle (Window.le_of_lt hlt))
      simp [protocol, here, Bind.bind, Pure.pure, hname, hslash, run, hu, hrun, spanTo]

theorem follows_tail : Follows tail fun w => some (Request.tail w) := by
  refine (follows_endLine.bind fun ended => .ite ended (follows_pure none)
    ((follows_protocol.calls lays_protocol fun _ => rfl).ifFound
      (fun p => follows_skipLine.bind fun _ => follows_pure (some p)) (follows_pure none))).congr
    fun w => ?_
  by_cases hlf : Byte.lf ∈ w.rest.takeWhile isSpace
  · simp [Request.tail, hlf]
  · cases hp : Http.protocol.read (w.skip isSpace) <;> simp [Request.tail, hlf, hp]

theorem follows_request : Follows request Http.request.read := by
  refine (follows_here.bind fun _ => follows_skipInLine.bind fun _ =>
    (follows_skipWhile fun b => !isSpace b).bind fun _ => follows_skipInLine.bind fun _ =>
      (follows_url.calls lays_url fun _ => rfl).bind fun _ => follows_tail.bind fun _ =>
        follows_here.bind fun _ => follows_pure _).congr fun w => ?_
  simp only [Http.request, Option.bind_some]
  cases hv : w.skipInLine? with
  | none => rfl
  | some v =>
    simp only [Option.map_some, Option.bind_some, run]
    cases hx : (v.skip fun b => !isSpace b).skipInLine? with
    | none => simp [hx]
    | some x => cases hy : Http.url.read x <;> simp [hx, hy, spanTo]

theorem follows_header : Follows header Http.header.read := by
  refine (follows_here.bind fun _ => follows_peek.bind fun first =>
    (follows_require (!isSpace first)).bind fun _ =>
      (follows_skipWhile fun b => b != Byte.colon && !isSpace b).bind fun _ =>
        follows_skipInLine.bind fun _ => (follows_eat Byte.colon).bind fun _ =>
          follows_here.bind fun _ => follows_headerValue.bind fun _ =>
            follows_here.bind fun _ => follows_pure _).congr fun w => ?_
  simp only [Http.header, Option.bind_some]
  cases hhead : w.rest.head? with
  | none => simp
  | some b =>
    cases hb : isSpace b with
    | true => simp [hb]
    | false =>
      simp only [Option.map_some, Option.bind_some, Option.all_some, hb, run]
      cases hv : (w.skip fun b => b != Byte.colon && !isSpace b).skipInLine? with
      | none => simp [hv]
      | some v =>
        cases hu : v.eat? Byte.colon with
        | none => simp [hv, hu]
        | some u =>
          have hvalue := Header.gatherLine_none u
          rw [Header.gatherLine] at hvalue
          simp [hv, hu, hvalue, Header.gatherLine, spanTo]

end Scan

end Recognition.Http

import Recognition.Proofs.Http.Written.Headers
import Recognition.Proofs.Http.Written.Target

namespace Recognition.Http

open Window

/-- A name with a version of one number or two. -/
structure ProtocolForm where
  name : List UInt8
  major : List UInt8
  minor : Option (List UInt8)
  name_bytes : ∀ b ∈ name, isSpace b = false ∧ b ≠ Byte.slash ∧ b ≠ 0
  major_ne_nil : major ≠ []
  major_digits : ∀ d ∈ major, isDigit d = true
  minor_ne_nil : ∀ m ∈ minor, m ≠ []
  minor_digits : ∀ m ∈ minor, ∀ d ∈ m, isDigit d = true
  version_le : decimal major * 256 + minor.elim 0 decimal ≤ 65535

/-- A verb, a target and a protocol with a space between each two, to be written on a line. -/
structure RequestLine where
  verb : List UInt8
  target : Target
  protocol : ProtocolForm
  lineBreak : LineBreak
  verb_ne_nil : verb ≠ []
  verb_bytes : ∀ b ∈ verb, isSpace b = false ∧ b ≠ 0

variable {pos : Nat} {rest : List UInt8}

theorem Window.slice_over {bytes xs : List UInt8} {k : Nat} (pos : Nat) (h : StandsAt bytes k xs) :
    (⟨pos, bytes⟩ : Window).slice (.over (pos + k) xs) = xs := by
  rw [slice, Span.length, Span.over, Nat.add_sub_cancel_left, Nat.add_sub_cancel_left]
  exact (List.prefix_iff_eq_take.1 h).symm

/-- What a protocol is made of by its delimiters alone: a name up to a slash, and what stands for
the numbers up to a point and to white space. -/
structure ProtocolRuns where
  name : List UInt8
  major : List UInt8
  minor : Option (List UInt8)
  name_bytes : ∀ b ∈ name, isSpace b = false ∧ b ≠ Byte.slash
  major_bytes : ∀ b ∈ major, isSpace b = false ∧ b ≠ Byte.dot
  minor_bytes : ∀ m ∈ minor, ∀ b ∈ m, isSpace b = false

namespace ProtocolRuns

def bytes (r : ProtocolRuns) : List UInt8 :=
  r.name ++ Byte.slash :: (r.major ++ r.minor.elim [] (Byte.dot :: ·))

def protocol (pos : Nat) (r : ProtocolRuns) (version : Nat) : Protocol where
  span := .over pos r.bytes
  name := .over pos r.name
  major := .over (pos + r.name.length + 1) r.major
  minor := r.minor.map (.over (pos + r.name.length + 1 + r.major.length + 1))
  version := version

theorem stops_minor (r : ProtocolRuns) (hrest : Stops (fun b => !isSpace b) rest) :
    Stops (fun b => !isSpace b && b != Byte.dot) (r.minor.elim [] (Byte.dot :: ·) ++ rest) := by
  cases r.minor with
  | none => exact hrest.mono fun b hb => (Bool.and_eq_true_iff.1 hb).1
  | some m => exact Stops.cons_iff.2 (by decide)

theorem optional_minor (r : ProtocolRuns) (hrest : Stops (fun b => !isSpace b) rest) (pos : Nat) :
    (Reader.runAfter Byte.dot fun b => !isSpace b).optional
        ⟨pos, r.minor.elim [] (Byte.dot :: ·) ++ rest⟩ =
      (r.minor.map (.over (pos + 1)), ⟨pos + (r.minor.elim [] (Byte.dot :: ·)).length, rest⟩) := by
  refine Reader.Reads.optional (fun m hm => Reader.reads_runAfter fun b hb => ?_) hrest
    (fun pos => Reader.runAfter_of_stops (by decide) hrest) pos
  simp [r.minor_bytes m hm b hb]

theorem slices (r : ProtocolRuns) (pos version : Nat) (rest : List UInt8) :
    (⟨pos, r.bytes ++ rest⟩ : Window).slice (r.protocol pos version).major = r.major ∧
      (r.protocol pos version).minor.map (⟨pos, r.bytes ++ rest⟩ : Window).slice = r.minor := by
  have hbytes : StandsAt (r.bytes ++ rest) 0 r.bytes := List.prefix_append _ _
  have hnumbers := (StandsAt.append_iff.1 hbytes).2.tail
  obtain ⟨hmajor, hminor⟩ := StandsAt.append_iff.1 hnumbers
  simp only [Nat.zero_add] at hmajor hminor
  refine ⟨Window.slice_over pos hmajor, ?_⟩
  rw [protocol, Option.map_map]
  cases h : r.minor with
  | none => rfl
  | some m =>
    rw [h] at hminor
    have hslice := Window.slice_over pos hminor.tail
    simp only [← Nat.add_assoc] at hslice
    exact congrArg some hslice

theorem exists_of_read_ne_none {w : Window} (h : Http.protocol.read w ≠ none) :
    ∃ (r : ProtocolRuns) (rest : List UInt8),
      w.rest = r.bytes ++ rest ∧ Stops (fun b => !isSpace b) rest := by
  obtain ⟨name, later, hname, hnameBytes, hnameStops⟩ :=
    Stops.exists_append (fun b => !isSpace b && b != Byte.slash) w.rest
  by_cases hslash : later.head? = some Byte.slash
  · obtain ⟨numbers, rfl⟩ := List.head?_eq_some_iff.1 hslash
    obtain ⟨major, after, rfl, hmajorBytes, hmajorStops⟩ :=
      Stops.exists_append (fun b => !isSpace b && b != Byte.dot) numbers
    by_cases hdot : after.head? = some Byte.dot
    · obtain ⟨digits, rfl⟩ := List.head?_eq_some_iff.1 hdot
      obtain ⟨minor, rest, rfl, hminorBytes, hrest⟩ :=
        Stops.exists_append (fun b => !isSpace b) digits
      refine ⟨⟨name, major, some minor, by simpa using hnameBytes, by simpa using hmajorBytes,
        by simpa using hminorBytes⟩, rest, ?_, hrest⟩
      simp [hname, bytes]
    · refine ⟨⟨name, major, none, by simpa using hnameBytes, by simpa using hmajorBytes, by simp⟩,
        after, by simp [hname, bytes], ?_⟩
      -- The first number stops at white space, as no point comes after it.
      intro b hb
      have hne : b ≠ Byte.dot := fun heq => hdot (heq ▸ hb)
      simpa [hne] using hmajorStops b hb
  · have hskip : w.skip (fun b => !isSpace b && b != Byte.slash) =
        ⟨w.pos + name.length, later⟩ := by
      rw [show w = ⟨w.pos, name ++ later⟩ from congrArg (Window.mk w.pos) hname]
      exact skip_append hnameBytes hnameStops
    have heat : (⟨w.pos + name.length, later⟩ : Window).eat? Byte.slash = none :=
      eat?_eq_none.2 hslash
    refine absurd ?_ h
    simp only [Http.protocol, run, hskip, heat, Option.bind_eq_bind, Option.bind_none]

/-- What is there by its delimiters is a protocol if it has a version. -/
theorem read_eq (r : ProtocolRuns) (hrest : Stops (fun b => !isSpace b) rest) (pos : Nat) :
    Http.protocol.read ⟨pos, r.bytes ++ rest⟩ =
      (Protocol.version? r.major r.minor).map fun version =>
        (r.protocol pos version, ⟨pos + r.bytes.length, rest⟩) := by
  obtain ⟨hmajor, hminor⟩ := r.slices pos 0 rest
  have hslash : Stops (fun b => !isSpace b && b != Byte.slash)
      (Byte.slash :: (r.major ++ (r.minor.elim [] (Byte.dot :: ·) ++ rest))) :=
    Stops.cons_iff.2 (by decide)
  have hnameBytes : ∀ b ∈ r.name, (!isSpace b && b != Byte.slash) = true := by
    intro b hb
    simp [r.name_bytes b hb]
  have hmajorBytes : ∀ b ∈ r.major, (!isSpace b && b != Byte.dot) = true := by
    intro b hb
    simp [r.major_bytes b hb]
  have hend : pos + r.name.length + 1 + r.major.length +
      (r.minor.elim [] (Byte.dot :: ·)).length = pos + r.bytes.length := by
    simp only [bytes, List.length_append, List.length_cons]
    omega
  simp only [protocol, bytes, List.append_assoc, List.cons_append] at hmajor hminor
  simp only [Http.protocol, bytes, List.append_assoc, List.cons_append,
    run_append hnameBytes hslash, eat?_cons, run_append hmajorBytes (r.stops_minor hrest),
    r.optional_minor hrest, Option.bind_eq_bind, Option.bind_some]
  rw [hmajor, hminor, hend]
  cases Protocol.version? r.major r.minor <;> rfl

end ProtocolRuns

theorem isSpace_of_isDigit {b : UInt8} (h : isDigit b = true) : isSpace b = false :=
  isSpace_eq_false (p := isDigit) (by decide) h

namespace ProtocolForm

def bytes (p : ProtocolForm) : List UInt8 :=
  p.name ++ Byte.slash :: (p.major ++ p.minor.elim [] (Byte.dot :: ·))

def version (p : ProtocolForm) : Nat := decimal p.major * 256 + p.minor.elim 0 decimal

def protocol (pos : Nat) (p : ProtocolForm) : Protocol where
  span := .over pos p.bytes
  name := .over pos p.name
  major := .over (pos + p.name.length + 1) p.major
  minor := p.minor.map (.over (pos + p.name.length + 1 + p.major.length + 1))
  version := p.version

theorem number?_eq {ds : List UInt8} (hne : ds ≠ []) (hds : ∀ d ∈ ds, isDigit d = true) :
    Protocol.number? ds = some (decimal ds) := by
  rw [Protocol.number?, if_pos ⟨hne, List.all_eq_true.2 hds⟩]

theorem version?_eq (p : ProtocolForm) :
    Protocol.version? p.major p.minor = some p.version := by
  have hmajor := number?_eq p.major_ne_nil p.major_digits
  have hminor : (p.minor.map Protocol.number?).getD (some 0) = some (p.minor.elim 0 decimal) := by
    cases h : p.minor with
    | none => rfl
    | some m => exact number?_eq (p.minor_ne_nil m h) (p.minor_digits m h)
  have hle : decimal p.major * 256 + p.minor.elim 0 decimal ≤ Protocol.maxVersion := p.version_le
  simp [Protocol.version?, hmajor, hminor, hle, version]

def runs (p : ProtocolForm) : ProtocolRuns where
  name := p.name
  major := p.major
  minor := p.minor
  name_bytes b hb := ⟨(p.name_bytes b hb).1, (p.name_bytes b hb).2.1⟩
  major_bytes b hb := by
    refine ⟨isSpace_of_isDigit (p.major_digits b hb), ?_⟩
    rintro rfl
    exact absurd (p.major_digits _ hb) (by decide)
  minor_bytes m hm b hb := isSpace_of_isDigit (p.minor_digits m hm b hb)

theorem reads (p : ProtocolForm) :
    Http.protocol.Reads (Stops fun b => !isSpace b) p.bytes p.protocol := by
  intro pos rest hrest
  have hread := p.runs.read_eq hrest pos
  have hversion : Protocol.version? p.runs.major p.runs.minor = some p.version := p.version?_eq
  rw [hversion] at hread
  exact hread

theorem nul_notMem (p : ProtocolForm) : 0 ∉ p.bytes := by
  have hname : 0 ∉ p.name := fun h => (p.name_bytes 0 h).2.2 rfl
  have hmajor : 0 ∉ p.major := fun h => absurd (p.major_digits 0 h) (by decide)
  have hminor : 0 ∉ p.minor.elim [] (Byte.dot :: ·) := by
    cases h : p.minor with
    | none => exact List.not_mem_nil
    | some m =>
      rw [Option.elim_some, List.mem_cons, not_or]
      exact ⟨by decide, fun hm => absurd (p.minor_digits m h 0 hm) (by decide)⟩
  rw [bytes, List.mem_append, List.mem_cons, List.mem_append]
  simp [hname, hmajor, hminor, Byte.slash]

end ProtocolForm

namespace RequestLine

def bytes (l : RequestLine) : List UInt8 :=
  l.verb ++ 0x20 :: (l.target.bytes ++ 0x20 :: (l.protocol.bytes ++ l.lineBreak.bytes))

def targetPos (pos : Nat) (l : RequestLine) : Nat := pos + l.verb.length + 1

def protocolPos (pos : Nat) (l : RequestLine) : Nat := l.targetPos pos + l.target.bytes.length + 1

def request (pos : Nat) (l : RequestLine) : Request where
  span := .over pos l.bytes
  verb := .over pos l.verb
  url := l.target.url (l.targetPos pos)
  protocol := some (l.protocol.protocol (l.protocolPos pos))

theorem skipLine_lineBreak (n : LineBreak) (pos : Nat) (rest : List UInt8) :
    (⟨pos, n.bytes ++ rest⟩ : Window).skipLine = ⟨pos + n.bytes.length, rest⟩ := by
  have hline : ∃ line, n.bytes ++ rest = line ++ Byte.lf :: rest ∧ Byte.lf ∉ line ∧
      n.bytes.length = line.length + 1 := by
    cases n with
    | lf => exact ⟨[], rfl, List.not_mem_nil, rfl⟩
    | crlf => exact ⟨[Byte.cr], rfl, by decide, rfl⟩
  obtain ⟨line, hsplit, hlf, hlength⟩ := hline
  rw [skipLine_of_split hsplit hlf, hlength]
  rfl

theorem takeWhile_space (hrest : Stops isSpace rest) :
    (0x20 :: rest).takeWhile isSpace = [0x20] := by
  rw [List.takeWhile_cons_of_pos (by decide), hrest.takeWhile]

theorem skip_space (hrest : Stops isSpace rest) :
    (⟨pos, 0x20 :: rest⟩ : Window).skip isSpace = ⟨pos + 1, rest⟩ := by
  rw [(skip_of_any (by rfl)).2, drop_cons, skip_of_stops hrest]

theorem skipInLine?_space (hne : rest ≠ []) (hrest : Stops isSpace rest) :
    (⟨pos, 0x20 :: rest⟩ : Window).skipInLine? = some ⟨pos + 1, rest⟩ := by
  rw [skipInLine?_eq_some, skip_space hrest, takeWhile_space hrest]
  exact ⟨rfl, by decide, hne⟩

theorem stops_protocol (p : ProtocolForm) : Stops isSpace (p.bytes ++ rest) := by
  rw [ProtocolForm.bytes, List.append_assoc]
  cases h : p.name with
  | nil => exact Stops.cons_iff.2 (by decide)
  | cons b later => exact Stops.cons_iff.2 (p.name_bytes b (by simp [h])).1

theorem tail_eq (l : RequestLine) (pos : Nat) (rest : List UInt8) :
    Request.tail ⟨pos, 0x20 :: (l.protocol.bytes ++ (l.lineBreak.bytes ++ rest))⟩ =
      (some (l.protocol.protocol (pos + 1)),
        ⟨pos + 1 + l.protocol.bytes.length + l.lineBreak.bytes.length, rest⟩) := by
  have hprotocol : Stops isSpace (l.protocol.bytes ++ (l.lineBreak.bytes ++ rest)) :=
    stops_protocol l.protocol
  have hbreak : Stops (fun b => !isSpace b) (l.lineBreak.bytes ++ rest) := by
    cases l.lineBreak <;> exact Stops.cons_iff.2 (by decide)
  have hread := l.protocol.reads (pos + 1) _ hbreak
  rw [Request.tail, takeWhile_space hprotocol, if_neg (by decide)]
  simp only [skip_space hprotocol, hread, skipLine_lineBreak]

/-- A request line is read whatever comes after it. -/
theorem reads (l : RequestLine) : Http.request.Reads (fun _ => True) l.bytes l.request := by
  intro pos rest _
  have hverb : ∀ b ∈ l.verb, (!isSpace b) = true := by
    intro b hb
    simp [l.verb_bytes b hb]
  have hfirst : Stops isSpace (l.verb ++ 0x20 :: (l.target.bytes ++ 0x20 :: (l.protocol.bytes ++
      (l.lineBreak.bytes ++ rest)))) :=
    .append l.verb_ne_nil fun b hb => (l.verb_bytes b (List.mem_of_mem_head? hb)).1
  obtain ⟨b, later, htarget, hb⟩ := l.target.exists_bytes
  have hsecond : Stops isSpace (l.target.bytes ++ 0x20 :: (l.protocol.bytes ++
      (l.lineBreak.bytes ++ rest))) := by
    rw [htarget]
    exact Stops.cons_iff.2 hb
  have hvisible : Stops isVisible (0x20 :: (l.protocol.bytes ++ (l.lineBreak.bytes ++ rest))) :=
    Stops.cons_iff.2 (by decide)
  have hspace : Stops (fun b => !isSpace b) (0x20 :: (l.target.bytes ++ 0x20 ::
      (l.protocol.bytes ++ (l.lineBreak.bytes ++ rest)))) :=
    Stops.cons_iff.2 (by decide)
  simp only [Http.request, bytes, List.append_assoc, List.cons_append,
    skipInLine?_of_stops (by simp) hfirst, run_append hverb hspace,
    skipInLine?_space (by simp [htarget]) hsecond, l.target.reads _ _ hvisible, l.tail_eq,
    Option.bind_eq_bind, Option.bind_some]
  have hend : pos + l.verb.length + 1 + l.target.bytes.length + 1 + l.protocol.bytes.length +
      l.lineBreak.bytes.length = pos + l.bytes.length := by
    simp only [bytes, List.length_append, List.length_cons]
    omega
  rw [hend]
  rfl

theorem nul_notMem (l : RequestLine) : 0 ∉ l.bytes := by
  have hverb : 0 ∉ l.verb := fun h => (l.verb_bytes 0 h).2 rfl
  simp [bytes, hverb, l.target.nul_notMem, l.protocol.nul_notMem, l.lineBreak.nul_notMem]

end RequestLine

/-- The protocol has this name and these numbers. -/
structure Protocol.Spells (text : List UInt8) (p : Protocol) (f : ProtocolForm) : Prop where
  name : p.name.bytes text = f.name
  major : p.major.bytes text = f.major
  minor : p.minor.map (·.bytes text) = f.minor
  version : p.version = decimal f.major * 256 + f.minor.elim 0 decimal

theorem ProtocolRuns.bytes_protocol {text : List UInt8} (r : ProtocolRuns) (version : Nat)
    (h : StandsAt text pos r.bytes) :
    (r.protocol pos version).name.bytes text = r.name ∧
      (r.protocol pos version).major.bytes text = r.major ∧
      (r.protocol pos version).minor.map (·.bytes text) = r.minor := by
  obtain ⟨hname, hnumbers⟩ := StandsAt.append_iff.1 h
  obtain ⟨hmajor, hminor⟩ := StandsAt.append_iff.1 hnumbers.tail
  refine ⟨hname.bytes_over, hmajor.bytes_over, ?_⟩
  rw [protocol, Option.map_map]
  cases hr : r.minor with
  | none => rfl
  | some m =>
    rw [hr] at hminor
    exact congrArg some hminor.tail.bytes_over

theorem ProtocolForm.spells {text : List UInt8} (p : ProtocolForm)
    (h : StandsAt text pos p.bytes) : (p.protocol pos).Spells text p := by
  obtain ⟨hname, hmajor, hminor⟩ := p.runs.bytes_protocol p.version h
  exact ⟨hname, hmajor, hminor, rfl⟩

/-- A request line is read as what it was made of, whatever comes before and after it: its verb, its
target with all parts, and its protocol. The request ends with the line. -/
theorem request_line {text before after : List UInt8} {stop : Option Nat} (l : RequestLine)
    (htext : text = before ++ l.bytes ++ after)
    (hstop : ∀ e, stop = some e → (before ++ l.bytes).length ≤ e) :
    ∃ r p, Element.request.parse text before.length stop = some r ∧ r.protocol = some p ∧
      r.span = ⟨before.length, before.length + l.bytes.length⟩ ∧
      r.verb.bytes text = l.verb ∧
      r.url.span.bytes text = l.target.bytes ∧ r.url.Spells text l.target ∧
      p.span.bytes text = l.protocol.bytes ∧ p.Spells text l.protocol ∧
      r = l.request before.length := by
  subst htext
  obtain ⟨rest, hwindow⟩ := exists_of_eq after l.nul_notMem hstop
  have hread := l.reads before.length rest trivial
  obtain ⟨hverb, hlater⟩ := StandsAt.append_iff.1 (StandsAt.between before l.bytes after)
  obtain ⟨htarget, hlater⟩ := StandsAt.append_iff.1 hlater.tail
  have hprotocol := (StandsAt.append_iff.1 hlater.tail).1
  refine ⟨_, _, ?_, rfl, rfl, hverb.bytes_over, htarget.bytes_over, l.target.spells htarget,
    hprotocol.bytes_over, l.protocol.spells hprotocol, rfl⟩
  rw [Element.parse, hwindow]
  exact congrArg (Option.map Prod.fst) hread

/-- A port without digits, an empty segment, parameters with an empty value, without a value and
with one that holds other delimiters, and a protocol without a name. -/
theorem request_line_of_empty_parts :
    ∃ l : RequestLine,
      "\r\n".toUTF8.data.toList ++ l.bytes ++ "a: b".toUTF8.data.toList =
        "\r\nPUT hTTp://h://a=b&c?x=&y&z=?/= /2\na: b".toUTF8.data.toList ∧
      Element.request.parse
          "\r\nPUT hTTp://h://a=b&c?x=&y&z=?/= /2\na: b".toUTF8.data.toList 2 none =
        some ⟨⟨2, 37⟩, ⟨2, 5⟩,
          ⟨⟨6, 33⟩, some ⟨13, 14⟩, 80, [⟨16, 16⟩, ⟨17, 22⟩],
            [⟨⟨23, 25⟩, ⟨23, 24⟩, some ⟨25, 25⟩⟩, ⟨⟨26, 27⟩, ⟨26, 27⟩, none⟩,
              ⟨⟨28, 33⟩, ⟨28, 29⟩, some ⟨30, 33⟩⟩]⟩,
          some ⟨⟨34, 36⟩, ⟨34, 34⟩, ⟨35, 36⟩, none, 512⟩⟩ := by
  let fields : List QueryField :=
    [⟨[0x78], some [], by decide, by simp; decide, by simp⟩,
      ⟨[0x79], none, by decide, by simp; decide, by simp⟩,
      ⟨[0x7A], some [0x3F, 0x2F, 0x3D], by decide, by simp; decide, by simp; decide⟩]
  let authority : Authority :=
    ⟨[0x68, 0x54, 0x54, 0x70, 0x3A, 0x2F, 0x2F], [0x68], some [], by decide +kernel, by decide,
      by simp; decide, by simp, by decide⟩
  let target : Target :=
    ⟨some authority, [[], [0x61, 0x3D, 0x62, 0x26, 0x63]], some fields, by decide,
      by simp; decide⟩
  let l : RequestLine :=
    ⟨[0x50, 0x55, 0x54], target,
      ⟨[], [0x32], none, by simp, by decide, by simp; decide, by simp, by simp, by decide⟩, .lf,
      by decide, by simp; decide⟩
  have htext : "\r\nPUT hTTp://h://a=b&c?x=&y&z=?/= /2\na: b".toUTF8.data.toList =
      "\r\n".toUTF8.data.toList ++ l.bytes ++ "a: b".toUTF8.data.toList := by
    decide +kernel
  have hstop : ∀ e, none = some e → ("\r\n".toUTF8.data.toList ++ l.bytes).length ≤ e := by
    simp
  obtain ⟨r, p, hparse, -, -, -, -, -, -, -, rfl⟩ := request_line l htext hstop
  exact ⟨l, htext.symm, hparse.trans (by decide +kernel)⟩

end Recognition.Http

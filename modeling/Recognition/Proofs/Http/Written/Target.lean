import Recognition.Proofs.Http.Target
import Recognition.Proofs.Http.Written.Window

namespace Recognition.Http

open Window

/-- A parameter of a query, with a value, perhaps empty, or without one. -/
structure QueryField where
  name : List UInt8
  value : Option (List UInt8)
  name_ne_nil : name ≠ []
  name_bytes : ∀ b ∈ name, isVisible b = true ∧ b ≠ Byte.ampersand ∧ b ≠ Byte.equals
  value_bytes : ∀ v ∈ value, ∀ b ∈ v, isVisible b = true ∧ b ≠ Byte.ampersand

/-- What names a server, with a colon and the digits of a port, perhaps none, or without them. -/
structure Authority where
  scheme : List UInt8
  server : List UInt8
  port : Option (List UInt8)
  /-- Letters may have any case. -/
  scheme_eq : sameIgnoringCase scheme "http://".toUTF8.data.toList = true
  server_ne_nil : server ≠ []
  server_bytes : ∀ b ∈ server, isVisible b = true ∧ b ≠ Byte.colon ∧ b ≠ Byte.slash
  port_digits : ∀ ds ∈ port, ∀ d ∈ ds, isDigit d = true
  port_le : ∀ ds ∈ port, decimal ds ≤ 65535

structure Target where
  authority : Option Authority
  /-- What follows each slash. -/
  path : List (List UInt8)
  /-- What follows the question mark, perhaps nothing. -/
  query : Option (List QueryField)
  path_ne_nil : path ≠ []
  path_bytes : ∀ s ∈ path, ∀ b ∈ s, isVisible b = true ∧ b ≠ Byte.question ∧ b ≠ Byte.slash

variable {pos : Nat} {rest : List UInt8}

namespace QueryField

def bytes (f : QueryField) : List UInt8 := f.name ++ f.value.elim [] fun v => Byte.equals :: v

def param (pos : Nat) (f : QueryField) : UrlParameter :=
  ⟨.over pos f.bytes, .over pos f.name, f.value.map (.over (pos + f.name.length + 1))⟩

theorem isNameByte_of_mem (f : QueryField) : ∀ b ∈ f.name, Url.isNameByte b = true := by
  intro b hb
  simp [Url.isNameByte, f.name_bytes b hb]

theorem isValueByte_of_mem (f : QueryField) : ∀ b ∈ f.bytes, Url.isValueByte b = true := by
  intro b hb
  rw [bytes, List.mem_append] at hb
  rcases hb with hb | hb
  · simp [Url.isValueByte, f.name_bytes b hb]
  · cases hvalue : f.value with
    | none => simp [hvalue] at hb
    | some v =>
      rw [hvalue, Option.elim_some, List.mem_cons] at hb
      rcases hb with rfl | hb
      · decide
      · simp [Url.isValueByte, f.value_bytes v hvalue b hb]

theorem isNameByte_le (b : UInt8) (h : Url.isNameByte b = true) : Url.isValueByte b = true := by
  simp only [Url.isNameByte, Bool.and_eq_true] at h
  simpa [Url.isValueByte] using h.1

theorem stops_name (f : QueryField) (hrest : Stops Url.isValueByte rest) :
    Stops Url.isNameByte ((f.value.elim [] fun v => Byte.equals :: v) ++ rest) := by
  cases f.value with
  | none => exact hrest.mono isNameByte_le
  | some v => exact Stops.cons_iff.2 (by decide)

theorem reads (f : QueryField) :
    urlParameter.Reads (Stops Url.isValueByte) f.bytes (param · f) := by
  intro pos rest hrest
  have hvalue : ∀ v ∈ f.value, (Reader.runAfter Byte.equals Url.isValueByte).Reads
      (Stops Url.isValueByte) (Byte.equals :: v) (fun pos => .over (pos + 1) v) := by
    intro v hv
    apply Reader.reads_runAfter
    intro b hb
    simp [Url.isValueByte, f.value_bytes v hv b hb]
  have hread := Reader.Reads.optional hvalue hrest
    (fun pos => Reader.runAfter_of_stops (b := Byte.equals) (by decide) hrest) (pos + f.name.length)
  simp only [urlParameter, bytes, List.append_assoc,
    run?_append f.name_ne_nil f.isNameByte_of_mem (f.stops_name hrest), Option.bind_eq_bind,
    Option.bind_some, hread, param, spanTo, Span.over, List.length_append, ← Nat.add_assoc]
  rfl

theorem stops_ampersand (tail : List UInt8) : Stops Url.isValueByte (Byte.ampersand :: tail) :=
  Stops.cons_iff.2 (by decide)

theorem reads_first (f : QueryField) :
    Url.queryParameter.Reads (Stops Url.isValueByte) f.bytes (param · f) := by
  intro pos rest hrest
  have hstops : Stops (· == Byte.ampersand) (f.bytes ++ rest) := by
    rw [bytes, List.append_assoc]
    refine .append f.name_ne_nil fun b hb => ?_
    simp [f.name_bytes b (List.mem_of_mem_head? hb)]
  rw [Url.queryParameter]
  simp only
  rw [skip_of_stops hstops, f.reads pos rest hrest]

theorem reads_later (f : QueryField) :
    Url.queryParameter.Reads (Stops Url.isValueByte) (Byte.ampersand :: f.bytes)
      (fun pos => f.param (pos + 1)) := by
  intro pos rest hrest
  have hskip : (⟨pos, Byte.ampersand :: f.bytes ++ rest⟩ : Window).skip (· == Byte.ampersand) =
      (⟨pos + 1, f.bytes ++ rest⟩ : Window).skip (· == Byte.ampersand) := by
    rw [(skip_of_any (by simp)).2, List.cons_append, drop_cons]
  have hread := f.reads_first (pos + 1) rest hrest
  rw [Url.queryParameter] at hread ⊢
  simp only at hread ⊢
  rw [hskip, hread, List.length_cons, Nat.add_assoc, Nat.add_comm 1]

theorem many_joined (fs : List QueryField) (hrest : Stops isVisible rest) (pos : Nat) :
    Url.queryParameter.many ⟨pos, joined Byte.ampersand bytes fs ++ rest⟩ =
      (inJoin Byte.ampersand bytes param pos fs,
        ⟨pos + (joined Byte.ampersand bytes fs).length, rest⟩) := by
  have hvalue : Stops Url.isValueByte rest := hrest.mono fun b hb => (Bool.and_eq_true_iff.1 hb).1
  have hstop : ∀ pos, Url.queryParameter.read ⟨pos, rest⟩ = none := by
    intro pos
    have hskip : (⟨pos, rest⟩ : Window).skip (· == Byte.ampersand) = ⟨pos, rest⟩ :=
      skip_of_stops (hrest.mono (by simp [show isVisible Byte.ampersand = true by decide]))
    rw [Url.queryParameter]
    simp only
    rw [hskip, Url.urlParameter_eq_none, run?_eq_none]
    exact (hvalue.mono isNameByte_le)
  -- The first parameter has no ampersand before it, and each of the others has one.
  cases fs with
  | nil => exact Reader.many_of_none (hstop pos)
  | cons f fs =>
    have htail : Stops Url.isValueByte (fs.flatMap (Byte.ampersand :: bytes ·) ++ rest) :=
      hvalue.flatMap (by decide) fs
    have hlater := Reader.Reads.many (fun g (_ : g ∈ fs) => g.reads_later)
      (fun g _ tail => stops_ampersand _) hvalue hstop (pos + f.bytes.length)
    rw [joined, List.append_assoc, Reader.many_of_some (f.reads_first pos _ htail), hlater, inJoin,
      List.length_append, Nat.add_assoc]

end QueryField

namespace Url

variable {scheme server digits : List UInt8}

theorem length_of_scheme (h : sameIgnoringCase scheme Url.scheme = true) :
    scheme.length = Url.scheme.length := by
  have hlength := congrArg List.length (beq_iff_eq.1 h)
  rw [List.length_map, List.length_map] at hlength
  exact hlength

theorem port?_colon (hdigits : ∀ d ∈ digits, isDigit d = true) (hrest : Stops isDigit rest)
    (pos : Nat) :
    port? ⟨pos, Byte.colon :: (digits ++ rest)⟩ =
      (portOf? digits).map fun n => (n, ⟨pos + (Byte.colon :: digits).length, rest⟩) := by
  have htake : (digits ++ rest).takeWhile isDigit = digits := by
    rw [List.takeWhile_append_of_pos hdigits, hrest.takeWhile, List.append_nil]
  simp only [port?, eat?_cons, htake, skip_append hdigits hrest, List.length_cons, Nat.add_assoc,
    Nat.add_comm 1]

theorem authority?_append (hscheme : sameIgnoringCase scheme Url.scheme = true)
    (hne : server ≠ [])
    (hserver : ∀ b ∈ server, isVisible b = true ∧ b ≠ Byte.colon ∧ b ≠ Byte.slash)
    (hrest : Stops isServerByte rest) (pos : Nat) :
    authority? ⟨pos, scheme ++ (server ++ rest)⟩ =
      (port? ⟨pos + scheme.length + server.length, rest⟩).map fun (n, v) =>
        ((some (.over (pos + scheme.length) server), n), v) := by
  have hbytes : ∀ b ∈ server, isServerByte b = true := by
    intro b hb
    simp [isServerByte, hserver b hb]
  have hlength := length_of_scheme hscheme
  have htake : sameIgnoringCase ((scheme ++ (server ++ rest)).take Url.scheme.length) Url.scheme =
      true := by
    rw [← hlength, List.take_left]
    exact hscheme
  simp only [authority?, htake, if_true]
  -- The letters may have any case, so the scheme is left behind by its length.
  simp only [← hlength, drop_append, run?_append hne hbytes hrest, Option.bind_eq_bind,
    Option.bind_some]
  cases port? ⟨pos + scheme.length + server.length, rest⟩ <;> rfl

end Url

namespace Authority

def bytes (a : Authority) : List UInt8 :=
  a.scheme ++ (a.server ++ a.port.elim [] (Byte.colon :: ·))

/-- The port that the digits write, or the usual one without digits. -/
def portNumber (a : Authority) : Nat :=
  match a.port with
  | none | some [] => 80
  | some ds => decimal ds

theorem length_scheme (a : Authority) : a.scheme.length = Url.scheme.length :=
  Url.length_of_scheme a.scheme_eq

theorem portOf?_eq {ds : List UInt8} (hle : decimal ds ≤ 65535) :
    Url.portOf? ds = some (if ds = [] then 80 else decimal ds) := by
  rw [Url.portOf?, if_pos (show decimal ds ≤ Url.maxPort from hle)]
  split <;> rfl

theorem port?_eq (a : Authority) (pos : Nat) (rest : List UInt8) :
    Url.port? ⟨pos, a.port.elim [] (Byte.colon :: ·) ++ Byte.slash :: rest⟩ =
      some (a.portNumber,
        ⟨pos + (a.port.elim [] (Byte.colon :: ·)).length, Byte.slash :: rest⟩) := by
  cases hport : a.port with
  | none =>
    have hcolon : (⟨pos, Byte.slash :: rest⟩ : Window).eat? Byte.colon = none :=
      eat?_eq_none.2 (by simp [Byte.slash, Byte.colon])
    simp only [Option.elim_none, List.nil_append, Url.port?, hcolon, portNumber, hport]
    rfl
  | some ds =>
    have hslash : Stops isDigit (Byte.slash :: rest) := Stops.cons_iff.2 (by decide)
    have hnumber : (if ds = [] then 80 else decimal ds) = a.portNumber := by
      cases ds <;> simp [portNumber, hport]
    simp only [Option.elim_some, List.cons_append, Url.port?_colon (a.port_digits ds hport) hslash,
      portOf?_eq (a.port_le ds hport), hnumber, Option.map_some]

theorem authority?_eq (a : Authority) (pos : Nat) (rest : List UInt8) :
    Url.authority? ⟨pos, a.bytes ++ Byte.slash :: rest⟩ =
      some ((some (.over (pos + a.scheme.length) a.server), a.portNumber),
        ⟨pos + a.bytes.length, Byte.slash :: rest⟩) := by
  have hstops : Stops Url.isServerByte
      (a.port.elim [] (Byte.colon :: ·) ++ Byte.slash :: rest) := by
    cases a.port <;> exact Stops.cons_iff.2 (by decide)
  have hauthority := Url.authority?_append a.scheme_eq a.server_ne_nil a.server_bytes hstops pos
  rw [a.port?_eq] at hauthority
  simp only [bytes, List.append_assoc, hauthority, Option.map_some, List.length_append,
    ← Nat.add_assoc]

theorem exists_scheme (a : Authority) : ∃ b later, a.scheme = b :: later ∧ isSpace b = false := by
  have hlength := a.length_scheme
  cases hscheme : a.scheme with
  | nil => simp [hscheme, Url.scheme] at hlength
  | cons b later =>
    have hlower := beq_iff_eq.1 a.scheme_eq
    rw [hscheme, List.map_cons] at hlower
    have hb : toLower b = 0x68 := (List.cons.inj hlower).1
    exact ⟨b, later, rfl, isSpace_eq_false (p := (toLower · == 0x68)) (by decide) (beq_iff_eq.2 hb)⟩

theorem nul_notMem (a : Authority) : 0 ∉ a.bytes := by
  have hscheme : 0 ∉ a.scheme := notMem_of_sameIgnoringCase a.scheme_eq (by decide)
  have hserver : 0 ∉ a.server := fun h => absurd (a.server_bytes 0 h).1 (by decide)
  have hport : 0 ∉ a.port.elim [] (Byte.colon :: ·) := by
    cases h : a.port with
    | none => exact List.not_mem_nil
    | some ds =>
      rw [Option.elim_some, List.mem_cons, not_or]
      exact ⟨by decide, fun hds => absurd (a.port_digits ds h 0 hds) (by decide)⟩
  simp [bytes, hscheme, hserver, hport]

theorem authority?_none (pos : Nat) (rest : List UInt8) :
    Url.authority? ⟨pos, Byte.slash :: rest⟩ = some ((none, 80), ⟨pos, Byte.slash :: rest⟩) := by
  have hscheme :
      sameIgnoringCase ((Byte.slash :: rest).take Url.scheme.length) Url.scheme = false := by
    simp [sameIgnoringCase, Url.scheme, Byte.slash, toLower]
  simp only [Url.authority?, hscheme]
  rfl

end Authority

namespace Target

def pathBytes (t : Target) : List UInt8 := t.path.flatMap (Byte.slash :: ·)

def queryBytes (t : Target) : List UInt8 :=
  t.query.elim [] fun fs => Byte.question :: joined Byte.ampersand QueryField.bytes fs

def bytes (t : Target) : List UInt8 :=
  t.authority.elim [] Authority.bytes ++ (t.pathBytes ++ t.queryBytes)

def pathPos (pos : Nat) (t : Target) : Nat := pos + (t.authority.elim [] Authority.bytes).length

def queryPos (pos : Nat) (t : Target) : Nat := t.pathPos pos + t.pathBytes.length

def url (pos : Nat) (t : Target) : Url where
  span := .over pos t.bytes
  server := t.authority.map fun a => .over (pos + a.scheme.length) a.server
  port := t.authority.elim 80 Authority.portNumber
  path := inTurn (Byte.slash :: ·) (fun pos s => .over (pos + 1) s) (t.pathPos pos) t.path
  params :=
    t.query.elim [] (inJoin Byte.ampersand QueryField.bytes QueryField.param (t.queryPos pos + 1))

theorem pathBytes_eq (t : Target) : ∃ later, t.pathBytes = Byte.slash :: later := by
  obtain ⟨s, ss, hpath⟩ := List.exists_cons_of_ne_nil t.path_ne_nil
  exact ⟨_, by rw [pathBytes, hpath, List.flatMap_cons, List.cons_append]⟩

theorem authority?_eq (t : Target) (pos : Nat) (rest : List UInt8) :
    Url.authority? ⟨pos, t.bytes ++ rest⟩ =
      some ((t.authority.map fun a => .over (pos + a.scheme.length) a.server,
        t.authority.elim 80 Authority.portNumber),
        ⟨t.pathPos pos, t.pathBytes ++ (t.queryBytes ++ rest)⟩) := by
  obtain ⟨later, hlater⟩ := t.pathBytes_eq
  rw [bytes, pathPos, List.append_assoc, List.append_assoc, hlater, List.cons_append]
  cases t.authority with
  | none => exact Authority.authority?_none _ _
  | some a => exact a.authority?_eq _ _

theorem stops_queryBytes (t : Target) (hrest : Stops isVisible rest) :
    Stops (fun b => isVisible b && b != Byte.question) (t.queryBytes ++ rest) := by
  rw [queryBytes]
  cases t.query with
  | none => exact hrest.mono fun b hb => (Bool.and_eq_true_iff.1 hb).1
  | some fs => exact Stops.cons_iff.2 (by decide)

theorem readPath_eq (t : Target) (hrest : Stops isVisible rest) (pos : Nat) :
    Url.readPath ⟨pos, t.pathBytes ++ (t.queryBytes ++ rest)⟩ =
      (inTurn (Byte.slash :: ·) (fun pos s => .over (pos + 1) s) pos t.path,
        ⟨pos + t.pathBytes.length, t.queryBytes ++ rest⟩) := by
  have hstops := t.stops_queryBytes hrest
  have hsegment : Stops Url.isSegmentByte (t.queryBytes ++ rest) := by
    refine hstops.mono fun b hb => ?_
    simp only [Url.isSegmentByte, Bool.and_eq_true] at hb
    simpa using hb.1
  refine Reader.Reads.many (fun s hs => Reader.reads_runAfter fun b hb => ?_)
    (fun s _ tail => Stops.cons_iff.2 (by decide)) hsegment
    (fun pos => Reader.runAfter_of_stops (by decide) hstops) pos
  simp [Url.isSegmentByte, t.path_bytes s hs b hb]

theorem readQuery_eq (t : Target) (hrest : Stops isVisible rest) (pos : Nat) :
    Url.readQuery ⟨pos, t.queryBytes ++ rest⟩ =
      (t.query.elim [] (inJoin Byte.ampersand QueryField.bytes QueryField.param (pos + 1)),
        ⟨pos + t.queryBytes.length, rest⟩) := by
  rw [queryBytes]
  cases t.query with
  | none =>
    have hnone : (⟨pos, rest⟩ : Window).eat? Byte.question = none :=
      eat?_of_stops (by decide) hrest
    simp [Url.readQuery, hnone]
  | some fs =>
    have hamp : Stops (· == Byte.ampersand) rest := by
      refine hrest.mono fun b hb => ?_
      obtain rfl := beq_iff_eq.1 hb
      decide
    simp only [Option.elim_some, List.cons_append, Url.readQuery_of_eat? (eat?_cons _ _ _),
      QueryField.many_joined fs hrest, skip_of_stops hamp, List.length_cons, Nat.add_assoc,
      Nat.add_comm 1]

theorem exists_bytes (t : Target) : ∃ b later, t.bytes = b :: later ∧ isSpace b = false := by
  rw [bytes]
  cases t.authority with
  | none =>
    obtain ⟨later, hlater⟩ := t.pathBytes_eq
    exact ⟨_, _, by rw [hlater]; rfl, by decide⟩
  | some a =>
    obtain ⟨b, later, hscheme, hb⟩ := a.exists_scheme
    exact ⟨b, _, by rw [Option.elim_some, Authority.bytes, hscheme]; rfl, hb⟩

theorem nul_notMem (t : Target) : 0 ∉ t.bytes := by
  have hauthority : 0 ∉ t.authority.elim [] Authority.bytes := by
    cases t.authority with
    | none => exact List.not_mem_nil
    | some a => exact a.nul_notMem
  have hpath : 0 ∉ t.pathBytes := by
    rw [pathBytes, List.mem_flatMap]
    rintro ⟨s, hs, hnul⟩
    rcases List.mem_cons.1 hnul with hnul | hnul
    · exact absurd hnul (by decide)
    · exact absurd (t.path_bytes s hs 0 hnul).1 (by decide)
  have hquery : 0 ∉ t.queryBytes := by
    rw [queryBytes]
    cases t.query with
    | none => exact List.not_mem_nil
    | some fs =>
      have hne : ∀ b ∈ joined Byte.ampersand QueryField.bytes fs, b ≠ 0 := by
        refine forall_mem_joined (by decide) fun f _ b hb => ?_
        rintro rfl
        exact absurd (f.isValueByte_of_mem 0 hb) (by decide)
      rw [Option.elim_some, List.mem_cons, not_or]
      exact ⟨by decide, fun h => hne 0 h rfl⟩
  simp [bytes, hauthority, hpath, hquery]

theorem reads (t : Target) : Http.url.Reads (Stops isVisible) t.bytes t.url := by
  intro pos rest hrest
  have hpath : inTurn (Byte.slash :: ·) (fun pos s => Span.over (pos + 1) s) (t.pathPos pos) t.path
      ≠ [] := by
    obtain ⟨s, ss, hcons⟩ := List.exists_cons_of_ne_nil t.path_ne_nil
    simp [hcons, inTurn]
  have hend : t.pathPos pos + t.pathBytes.length + t.queryBytes.length = pos + t.bytes.length := by
    rw [pathPos, bytes, List.length_append, List.length_append]
    omega
  simp only [Http.url, t.authority?_eq, t.readPath_eq hrest, Option.bind_eq_bind, Option.bind_some,
    hpath, if_false, t.readQuery_eq hrest, hend]
  rfl

end Target

/-- The target has these parts: the server and the port that are named, or no server and the usual
port, and the parameters with an empty value told from those without one. -/
structure Url.Spells (text : List UInt8) (u : Url) (t : Target) : Prop where
  server : u.server.map (·.bytes text) = t.authority.map Authority.server
  port : u.port = t.authority.elim 80 Authority.portNumber
  path : u.path.map (·.bytes text) = t.path
  params : u.params.map (fun p => (p.name.bytes text, p.value.map (·.bytes text))) =
    (t.query.getD []).map fun f => (f.name, f.value)

theorem QueryField.bytes_param {text : List UInt8} (f : QueryField)
    (h : StandsAt text pos f.bytes) :
    ((f.param pos).name.bytes text, (f.param pos).value.map (·.bytes text)) =
      (f.name, f.value) := by
  obtain ⟨hname, hvalue⟩ := StandsAt.append_iff.1 h
  rw [param, Option.map_map]
  cases hf : f.value with
  | none => exact congrArg (·, none) hname.bytes_over
  | some v =>
    rw [hf] at hvalue
    exact congrArg₂ Prod.mk hname.bytes_over (congrArg some hvalue.tail.bytes_over)

theorem Target.spells {text : List UInt8} (t : Target) (h : StandsAt text pos t.bytes) :
    (t.url pos).Spells text t := by
  obtain ⟨hauthority, hlater⟩ := StandsAt.append_iff.1 h
  obtain ⟨hpath, hquery⟩ := StandsAt.append_iff.1 hlater
  refine ⟨?_, rfl, ?_, ?_⟩
  · rw [url, Option.map_map]
    cases ha : t.authority with
    | none => rfl
    | some a =>
      rw [ha] at hauthority
      have hserver := (StandsAt.append_iff.1 (StandsAt.append_iff.1 hauthority).2).1
      exact congrArg some hserver.bytes_over
  · exact (map_inTurn (g := id) (fun s _ _ hs => hs.tail.bytes_over) hpath).trans (List.map_id _)
  · rw [url]
    cases hq : t.query with
    | none => rfl
    | some fs =>
      rw [queryBytes, hq] at hquery
      exact map_inJoin (fun f _ _ => f.bytes_param) hquery.tail

end Recognition.Http

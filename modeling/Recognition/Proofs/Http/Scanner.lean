import Recognition.Proofs.Http.Layout
import Recognition.Proofs.Http.ValueScan

namespace Recognition.Http

open Window

namespace Scan

variable {α : Type} {m : Scan α} {r : Reader α}

def after (b : UInt8) (m : Scan α) : Scan α := do
  eat b
  m

def afterFolded (b : UInt8) (m : Scan α) : Scan α := do
  skipFolds
  eat b
  skipFolds
  m

def runAfter (b : UInt8) (p : UInt8 → Bool) : Scan Span := after b (skipWhile p)

def optional (m : Scan α) : Scan (Option α) := ifFound m (fun a => pure (some a)) (pure none)

theorem Follows.after (h : Follows m r.read) (b : UInt8) :
    Follows (after b m) (r.after b).read := by
  refine ((follows_eat b).bind fun _ => h).congr fun w => ?_
  cases hw : w.eat? b <;> simp [Reader.after, hw]

theorem Follows.afterFolded (h : Follows m r.read) (b : UInt8) :
    Follows (afterFolded b m) (r.afterFolded b).read := by
  refine (follows_skipFolds.bind fun _ => (follows_eat b).bind fun _ =>
    follows_skipFolds.bind fun _ => h).congr fun w => ?_
  cases hw : w.skipFolds.eat? b <;> simp [Reader.afterFolded, hw]

theorem follows_runAfter (b : UInt8) (p : UInt8 → Bool) :
    Follows (runAfter b p) (Reader.runAfter b p).read := by
  refine ((follows_eat b).bind fun _ => follows_skipWhile p).congr fun w => ?_
  cases hw : w.eat? b <;> simp [Reader.runAfter, hw]

theorem Follows.optional (h : Follows m r.read) :
    Follows (optional m) fun w => some (r.optional w) := by
  refine (h.ifFound (fun a => follows_pure (some a)) (follows_pure none)).congr fun w => ?_
  cases hw : r.read w <;> simp [Reader.optional, hw]

def token : Scan Span := takeWhile isTokenByte

/-- Through the closing quote. Yields where the content of the quotes ends. -/
def quoted : Scan Nat :=
  loop (fun _ => ifFound fold (fun _ => pure (.inr ())) do
    let stop ← here
    ifFound (eat Byte.quote) (fun _ => pure (.inl stop))
      (ifFound (eat Byte.backslash) (fun _ => do next; pure (.inr ())) do
        accept fun b => !isControl b
        return .inr ())) ()

def quotedString : Scan QuotedString := do
  let start ← here
  eat Byte.quote
  let inner ← here
  let stop ← quoted
  return ⟨⟨start, ← here⟩, ⟨inner, stop⟩⟩

theorem follows_token : Follows token Http.token.read := follows_takeWhile isTokenByte

def afterQuoted? (w : Window) : Option (Nat × Window) :=
  (quotedCount? w.rest).map fun n => ((w.drop n).pos, (w.drop n).drop 1)

theorem afterQuoted?_drop {w : Window} {k : Nat}
    (h : quotedCount? w.rest = (quotedCount? (w.drop k).rest).map (k + ·)) :
    afterQuoted? w = afterQuoted? (w.drop k) := by
  rw [afterQuoted?, afterQuoted?, h, Option.map_map]
  congr 1
  funext n
  simp only [Function.comp_apply, drop_drop]

theorem afterQuoted?_cons {w : Window} {b : UInt8} {bs : List UInt8} (hrest : w.rest = b :: bs)
    (hfold : w.afterFold? = none) : afterQuoted? w =
      if b = Byte.quote then some (w.pos, w.drop 1)
      else if b = Byte.backslash then
        if (w.drop 1).rest = [] then none else afterQuoted? ((w.drop 1).drop 1)
      else if isControl b then none
      else afterQuoted? (w.drop 1) := by
  have hfolds : foldsAt (b :: bs) = false := hrest ▸ afterFold?_eq_none.1 hfold
  have hdrop : (w.drop 1).rest = bs := by simp [drop, hrest]
  have hcount := quotedCount?_cons b bs
  rw [if_neg (by simp [hfolds]), ← hrest] at hcount
  split
  · rw [afterQuoted?, hcount, if_pos ‹_›, Option.map_some, drop_zero]
  · split
    · rw [if_neg ‹_›, if_pos ‹_›] at hcount
      rw [hdrop]
      split
      · rw [afterQuoted?, hcount, if_pos ‹_›, Option.map_none]
      · rw [drop_drop]
        apply afterQuoted?_drop
        rw [hcount, if_neg ‹_›]
        simp [drop, hrest, Nat.add_comm]
    · rw [if_neg ‹_›, if_neg ‹_›] at hcount
      split
      · rw [afterQuoted?, hcount, if_pos ‹_›, Option.map_none]
      · apply afterQuoted?_drop
        rw [hcount, if_neg ‹_›, hdrop]
        simp [Nat.add_comm]

theorem follows_quoted : Follows quoted afterQuoted? := by
  refine Follows.loop (g := fun _ => afterQuoted?) (fun _ =>
    follows_fold.ifFound (fun _ => follows_pure (.inr ())) (follows_here.bind fun stop =>
      (follows_eat Byte.quote).ifFound (fun _ => follows_pure (.inl stop))
        ((follows_eat Byte.backslash).ifFound
          (fun _ => (follows_accept fun _ => true).bind fun _ => follows_pure (.inr ()))
          ((follows_accept fun b => !isControl b).bind fun _ => follows_pure (.inr ())))))
    (fun _ w => ?_) ()
  cases hfold : w.afterFold? with
  | some v =>
    obtain ⟨k, hpos, hk, rfl, hfolds⟩ := exists_of_afterFold? hfold
    exact ⟨⟨k, hpos, hk, rfl⟩, afterQuoted?_drop (quotedCount?_of_foldsAt hfolds)⟩
  | none =>
    cases hrest : w.rest with
    | nil => simp [Follows.Round, eat?, hrest, afterQuoted?, quotedCount?]
    | cons b bs =>
      have hafter := afterQuoted?_cons hrest hfold
      have hlt := drop_one_lt hrest
      by_cases hquote : b = Byte.quote
      · simp [Follows.Round, eat?, hrest, hquote, hafter]
      · by_cases hbackslash : b = Byte.backslash
        · have hne : Byte.backslash ≠ Byte.quote := by decide
          rw [if_neg hquote, if_pos hbackslash] at hafter
          cases hnext : (w.drop 1).rest with
          | nil => simp [Follows.Round, eat?, hrest, hbackslash, hne, hafter, hnext]
          | cons b' bs' =>
            have hlt' := Window.lt_of_le_of_lt (drop_le (w.drop 1) 1) hlt
            simp [Follows.Round, eat?, hrest, hbackslash, hne, hafter, hnext, hlt']
        · rw [if_neg hquote, if_neg hbackslash] at hafter
          cases hcontrol : isControl b <;>
            simp [Follows.Round, eat?, hrest, hquote, hbackslash, hcontrol, hafter, hlt]

theorem follows_quotedString : Follows quotedString Http.quotedString.read := by
  refine (follows_here.bind fun start => (follows_eat Byte.quote).bind fun _ =>
    follows_here.bind fun inner => follows_quoted.bind fun stop => follows_here.bind fun e =>
      follows_pure _).congr fun w => ?_
  simp only [Http.quotedString, Option.bind_some]
  cases hv : w.eat? Byte.quote with
  | none => rfl
  | some v =>
    simp only [Option.map_some, Option.bind_some, afterQuoted?]
    cases hn : quotedCount? v.rest with
    | none => simp [hn]
    | some n => simp [hn, spanTo]

/-- The number of digits, each of which the digit zero is taken from. -/
def decimal (digits : List UInt8) : Checked Nat :=
  digits.foldlM (fun n b => do return n * 10 + (← Checked.difference b.toNat 0x30)) 0

def value : Scan Value :=
  ifFound (quotedString.call QuotedString.span) (fun s => pure (.quoted s)) do
    return .token (← token.call id)

def parameter : Scan Parameter := do
  let start ← here
  let name ← token.call id
  let val ← afterFolded Byte.equals (value.call Value.span)
  return ⟨⟨start, ← here⟩, name, val⟩

def parameters (m : Scan α) : Scan (List α) := many (afterFolded Byte.semicolon m)

def mediaRange : Scan MediaRange := do
  let start ← here
  let type ← token.call id
  let subtype ← afterFolded Byte.slash (token.call id)
  return ⟨⟨start, ← here⟩, type, subtype⟩

def mediaType : Scan MediaType := do
  let start ← here
  let range ← mediaRange.call MediaRange.span
  let params ← parameters (parameter.call Parameter.span)
  return ⟨⟨start, ← here⟩, range, params⟩

def cookieParameter : Scan CookieParameter := do
  let start ← here
  let p ← after Byte.dollar (parameter.call Parameter.span)
  return ⟨⟨start, ← here⟩, p.name, p.value⟩

def cookie : Scan Cookie := do
  let start ← here
  let name ← token.call id
  skipFolds
  eat Byte.equals
  skipFolds
  let val ← ifFound (quotedString.call QuotedString.span) (fun s => pure s.content)
    (skipWhile isCookieByte)
  let params ← parameters (cookieParameter.call CookieParameter.span)
  return ⟨⟨start, ← here⟩, name, val, params⟩

def urlParameter : Scan UrlParameter := do
  let start ← here
  let name ← takeWhile Url.isNameByte
  let val ← optional (runAfter Byte.equals Url.isValueByte)
  return ⟨⟨start, ← here⟩, name, val⟩

def language : Scan Language := do
  let start ← here
  let first ← takeWhile isLetter
  let others ← many (after Byte.hyphen (takeWhile isLetter))
  return ⟨⟨start, ← here⟩, first :: others⟩

def agent : Scan Agent := do
  let start ← here
  let product ← skipWhile fun b => !isSpace b && b != Byte.slash
  let version ← optional (runAfter Byte.slash fun b => !isSpace b)
  let stop ← here
  require (stop != start)
  return ⟨⟨start, stop⟩, product, version⟩

theorem Follows.calls {f : α → Layout} {span : α → Span} (h : Follows m r.read) (hlays : r.Lays f)
    (hspan : ∀ a, (f a).span = span a) : Follows (m.call span) r.read :=
  h.call fun {w v a} hread => by rw [← hspan a, hlays.span hread]; rfl

theorem follows_value : Follows value Http.value.read := by
  refine ((follows_quotedString.calls lays_quotedString fun _ => rfl).ifFound
    (fun s => follows_pure (Value.quoted s))
    ((follows_token.calls lays_token fun _ => rfl).bind
      fun s => follows_pure (Value.token s))).congr fun w => ?_
  cases hquoted : Http.quotedString.read w with
  | some x => simp [Http.value, hquoted]
  | none => cases htoken : Http.token.read w <;> simp [Http.value, hquoted, htoken]

theorem follows_parameter : Follows parameter Http.parameter.read :=
  follows_here.bind fun _ => (follows_token.calls lays_token fun _ => rfl).bind fun _ =>
    ((follows_value.calls lays_value fun x => by cases x <;> rfl).afterFolded Byte.equals).bind
      fun _ => follows_here.bind fun _ => follows_pure _

theorem Follows.parameters (h : Follows m r.read) :
    Follows (parameters m) fun w => some (Http.parameters r w) :=
  (h.afterFolded Byte.semicolon).many

theorem follows_mediaRange : Follows mediaRange Http.mediaRange.read :=
  follows_here.bind fun _ => (follows_token.calls lays_token fun _ => rfl).bind fun _ =>
    ((follows_token.calls lays_token fun _ => rfl).afterFolded Byte.slash).bind fun _ =>
      follows_here.bind fun _ => follows_pure _

theorem follows_mediaType : Follows mediaType Http.mediaType.read :=
  follows_here.bind fun _ => (follows_mediaRange.calls lays_mediaRange fun _ => rfl).bind fun _ =>
    (follows_parameter.calls lays_parameter fun _ => rfl).parameters.bind fun _ =>
      follows_here.bind fun _ => follows_pure _

theorem follows_cookieParameter : Follows cookieParameter Http.cookieParameter.read :=
  follows_here.bind fun _ =>
    ((follows_parameter.calls lays_parameter fun _ => rfl).after Byte.dollar).bind fun _ =>
      follows_here.bind fun _ => follows_pure _

theorem follows_cookie : Follows cookie Http.cookie.read := by
  refine (follows_here.bind fun _ => (follows_token.calls lays_token fun _ => rfl).bind fun _ =>
    follows_skipFolds.bind fun _ => (follows_eat Byte.equals).bind fun _ =>
      follows_skipFolds.bind fun _ =>
        ((follows_quotedString.calls lays_quotedString fun _ => rfl).ifFound
          (fun s => follows_pure s.content) (follows_skipWhile isCookieByte)).bind fun _ =>
        (follows_cookieParameter.calls lays_cookieParameter fun _ => rfl).parameters.bind fun _ =>
          follows_here.bind fun _ => follows_pure _).congr fun w => ?_
  rw [Http.cookie, Option.bind_some]
  cases hname : Http.token.read w with
  | none => simp [hname]
  | some x =>
    obtain ⟨name, v⟩ := x
    cases hu : v.skipFolds.eat? Byte.equals with
    | none => simp [hname, hu]
    | some u =>
      cases hquoted : Http.quotedString.read u.skipFolds <;>
        simp [hname, hu, hquoted, Cookie.readValue, spanTo]

theorem follows_urlParameter : Follows urlParameter Http.urlParameter.read :=
  follows_here.bind fun _ => (follows_takeWhile Url.isNameByte).bind fun _ =>
    (follows_runAfter Byte.equals Url.isValueByte).optional.bind fun _ =>
      follows_here.bind fun _ => follows_pure _

theorem follows_language : Follows language Http.language.read :=
  follows_here.bind fun _ => (follows_takeWhile isLetter).bind fun _ =>
    (Follows.after (r := Reader.run isLetter) (follows_takeWhile isLetter) Byte.hyphen).many.bind
      fun _ => follows_here.bind fun _ => follows_pure _

theorem follows_agent : Follows agent Http.agent.read := by
  refine (follows_here.bind fun start =>
    (follows_skipWhile fun b => !isSpace b && b != Byte.slash).bind fun _ =>
    (follows_runAfter Byte.slash fun b => !isSpace b).optional.bind fun _ =>
      follows_here.bind fun stop => (follows_require (stop != start)).bind fun _ =>
        follows_pure _).congr fun w => ?_
  simp only [Http.agent, Option.bind_some]
  split <;> simp_all [spanTo]

def portNumber : Scan Nat := do
  let digits ← skipWhile isDigit
  if digits.isEmpty then return Url.defaultPort
  else
    let n ← lift (decimal (← slice digits))
    require (n ≤ Url.maxPort)
    return n

def port : Scan Nat :=
  ifFound (eat Byte.colon) (fun _ => portNumber) (pure Url.defaultPort)

def scheme : Scan Bool := fun c => do
  let left ← Checked.difference c.stop (min c.pos c.stop)
  if Url.scheme.length ≤ left then
    let bytes ← Checked.slice c.text ⟨c.pos, c.pos + Url.scheme.length⟩
    return some (sameIgnoringCase bytes Url.scheme, c.pos)
  else return some (false, c.pos)

def server : Scan (Option Span × Nat) := do
  let s ← takeWhile Url.isServerByte
  return (some s, ← port)

def authority : Scan (Option Span × Nat) := do
  if ← scheme then
    advance Url.scheme.length
    server
  else return (none, Url.defaultPort)

def query : Scan (List UrlParameter) :=
  loop (fun params => ifFound (eat Byte.ampersand) (fun _ => pure (.inr params))
    (ifFound (urlParameter.call UrlParameter.span) (fun p => pure (.inr (params ++ [p])))
      (pure (.inl params)))) []

def url : Scan Url := do
  let start ← here
  let (server, port) ← authority
  let path ← many (runAfter Byte.slash Url.isSegmentByte)
  require (!path.isEmpty)
  let params ← ifFound (eat Byte.question) (fun _ => query) (pure [])
  return ⟨⟨start, ← here⟩, server, port, path, params⟩

theorem difference_digit {b : UInt8} (h : isDigit b = true) :
    Checked.difference b.toNat 0x30 = .ok (b.toNat - 0x30) := by
  simp only [isDigit, Bool.and_eq_true, decide_eq_true_eq, UInt8.le_iff_toNat_le] at h
  exact if_pos h.1

theorem decimal_eq {digits : List UInt8} (h : digits.all isDigit = true) :
    decimal digits = .ok (Http.decimal digits) := by
  suffices hfrom : ∀ n, digits.foldlM
      (fun n b => do return n * 10 + (← Checked.difference b.toNat 0x30)) n =
        Except.ok (digits.foldl (fun n b => n * 10 + (b.toNat - 0x30)) n) from hfrom 0
  induction digits with
  | nil => exact fun n => rfl
  | cons b bs ih =>
    intro n
    rw [List.all_cons, Bool.and_eq_true] at h
    rw [List.foldlM_cons, difference_digit h.1]
    exact ih h.2 _

theorem follows_portNumber : Follows portNumber fun w =>
    (Url.portOf? (w.rest.takeWhile isDigit)).map fun n => (n, w.skip isDigit) := by
  intro c
  have hrun := (follows_skipWhile isDigit c).run
  have hle := skip_le isDigit c.window
  have hafter : (c.window.run isDigit).2 = c.window.skip isDigit := rfl
  have hempty := run_isEmpty isDigit c.window
  show FollowsAt c portNumber
    ((Url.portOf? (c.window.rest.takeWhile isDigit)).map fun n => (n, c.window.skip isDigit))
  by_cases hnil : c.window.rest.takeWhile isDigit = []
  · rw [hnil] at hempty ⊢
    exact .of_le (by simp [portNumber, Bind.bind, Pure.pure, hrun, hempty, hafter]) hle
  · have hne : c.window.rest ≠ [] := by
      rintro hrest
      simp [hrest] at hnil
    have hslice := Cursor.slice_run hne (Window.le_refl _) isDigit
    have hdecimal : decimal (c.window.rest.takeWhile isDigit) = .ok _ :=
      decimal_eq (List.all_eq_true.2 fun b => List.mem_takeWhile_imp)
    rw [List.isEmpty_eq_false_iff.2 hnil] at hempty
    rw [Url.portOf?, if_neg hnil]
    by_cases hmax : Http.decimal (c.window.rest.takeWhile isDigit) ≤ Url.maxPort
    · rw [if_pos hmax]
      refine .of_le ?_ hle
      simp [portNumber, slice, lift, require, Bind.bind, Pure.pure, hrun, hempty, hslice, hdecimal,
        hmax, hafter, Except.map]
    · rw [if_neg hmax]
      apply FollowsAt.of_none
      simp [portNumber, slice, lift, require, fail, Bind.bind, hrun, hempty, hslice, hdecimal, hmax,
        Except.map]

theorem follows_port : Follows port Url.port? := by
  refine ((follows_eat Byte.colon).ifFound (fun _ => follows_portNumber)
    (follows_pure Url.defaultPort)).congr fun w => ?_
  rw [Url.port?]
  cases w.eat? Byte.colon <;> rfl

theorem length_of_sameIgnoringCase {a b : List UInt8} (h : sameIgnoringCase a b = true) :
    a.length = b.length := by
  rw [sameIgnoringCase, beq_iff_eq] at h
  simpa using congrArg List.length h

theorem sameIgnoringCase_takeWhile {bytes : List UInt8} (h : bytes.length = Url.scheme.length) :
    sameIgnoringCase (bytes.takeWhile (· ≠ 0)) Url.scheme = sameIgnoringCase bytes Url.scheme := by
  -- Bytes up to a NUL name the scheme just as all of them do: it has no NUL in it.
  have hprefix : bytes.takeWhile (· ≠ 0) <+: bytes := List.takeWhile_prefix _
  by_cases hnul : 0 ∈ bytes
  · have hshort : ¬ sameIgnoringCase (bytes.takeWhile (· ≠ 0)) Url.scheme = true := by
      intro hsame
      have hlength := length_of_sameIgnoringCase hsame
      rw [← h] at hlength
      rw [← hprefix.eq_of_length hlength] at hnul
      simpa using List.mem_takeWhile_imp hnul
    have hsame : ¬ sameIgnoringCase bytes Url.scheme = true := fun hsame =>
      notMem_of_sameIgnoringCase hsame (by decide) hnul
    rw [Bool.not_eq_true] at hshort hsame
    rw [hshort, hsame]
  · have hself : bytes.takeWhile (· ≠ 0) = bytes := by
      refine List.takeWhile_eq_self_iff.2 fun b hb => ?_
      rw [decide_eq_true_eq]
      rintro rfl
      exact hnul hb
    rw [hself]

theorem follows_scheme : Follows scheme fun w =>
    some (sameIgnoringCase (w.rest.take Url.scheme.length) Url.scheme, w) := by
  intro c
  refine .of_le ?_ (Window.le_refl _)
  have hpos : 0 < Url.scheme.length := by decide
  have hlength := c.length_bytes
  -- The bytes that are cut out may hold a NUL, but those of the scheme do not.
  have hrest : c.window.rest.take Url.scheme.length =
      (c.bytes.take Url.scheme.length).takeWhile (· ≠ 0) := by
    rw [← List.take_takeWhile]
    rfl
  have hleft : Checked.difference c.stop (min c.pos c.stop) = .ok (c.stop - c.pos) := by
    rw [Checked.difference, if_pos (Nat.min_le_right _ _)]
    congr 1
    omega
  rw [hrest]
  by_cases hlong : Url.scheme.length ≤ c.stop - c.pos
  · have hslice := c.slice_take (n := Url.scheme.length) (by omega)
    have htake : (c.bytes.take Url.scheme.length).length = Url.scheme.length := by
      rw [List.length_take, hlength, Nat.min_eq_left hlong]
    rw [sameIgnoringCase_takeWhile htake]
    simp [scheme, hleft, hlong, hslice, Bind.bind, Except.bind, Pure.pure, Except.pure]
  · have hshort : sameIgnoringCase ((c.bytes.take Url.scheme.length).takeWhile (· ≠ 0)) Url.scheme =
        false := by
      rw [← Bool.not_eq_true]
      intro hsame
      have hsum := length_of_sameIgnoringCase hsame
      have hle := (List.takeWhile_prefix (fun b => decide (b ≠ 0))
        (l := c.bytes.take Url.scheme.length)).length_le
      rw [hsum, List.length_take, hlength] at hle
      omega
    rw [hshort]
    simp [scheme, hleft, hlong, Bind.bind, Except.bind, Pure.pure, Except.pure]

theorem follows_server : Follows server fun w => (w.run? Url.isServerByte).bind fun (s, v) =>
    (Url.port? v).bind fun (n, u) => some ((some s, n), u) :=
  (follows_takeWhile Url.isServerByte).bind fun s =>
    follows_port.bind fun n => follows_pure (some s, n)

theorem follows_authority : Follows authority Url.authority? := by
  intro c
  have hrun := (follows_scheme c).run
  rw [Url.authority?]
  split
  · rename_i hscheme
    have hlength := length_of_sameIgnoringCase hscheme
    have hadvance := followsAt_advance (n := Url.scheme.length) (c := c) (by
      rw [List.length_take] at hlength
      omega)
    have hserver := hadvance.bind fun _ v hv => follows_server.followsAt (hadvance.le hv)
    have hauthority : authority c = (advance Url.scheme.length >>= fun _ => server) c := by
      simp [authority, Bind.bind, hrun, hscheme]
    exact ⟨hauthority.trans hserver.run, hserver.le⟩
  · rename_i hscheme
    exact .of_le (by simp [authority, Bind.bind, Pure.pure, hrun, hscheme]) (Window.le_refl _)

theorem follows_query : Follows query fun w =>
    some ((Url.queryParameter.many w).1,
      (Url.queryParameter.many w).2.skip (· == Byte.ampersand)) := by
  refine Follows.loop (g := fun params w => some (params ++ (Url.queryParameter.many w).1,
      (Url.queryParameter.many w).2.skip (· == Byte.ampersand))) (fun params =>
    (follows_eat Byte.ampersand).ifFound (fun _ => follows_pure (.inr params))
      ((follows_urlParameter.calls lays_urlParameter fun _ => rfl).ifFound
        (fun p => follows_pure (.inr (params ++ [p]))) (follows_pure (.inl params))))
    (fun params w => ?_) []
  -- One round of the loop takes one ampersand, where the reader skips all of them at once.
  by_cases hany : w.rest.head?.any (· == Byte.ampersand) = true
  · obtain ⟨hlt, hskip⟩ := skip_of_any hany
    have heat : w.eat? Byte.ampersand = some (w.drop 1) := by
      rw [eat?, if_pos (any_beq_iff.1 hany)]
    have hread : Url.queryParameter.read w = Url.queryParameter.read (w.drop 1) := by
      simp only [Url.queryParameter, hskip]
    cases hp : Url.queryParameter.read (w.drop 1) with
    | none =>
      rw [hp] at hread
      simp [Follows.Round, heat, hlt, Reader.many_of_none hread, Reader.many_of_none hp, hskip]
    | some x =>
      rw [hp] at hread
      simp [Follows.Round, heat, hlt, Reader.many_of_some hread, Reader.many_of_some hp]
  · have hskip := skip_of_not_any (by simpa using hany)
    have heat : w.eat? Byte.ampersand = none := by
      rw [eat?, if_neg (mt any_beq_iff.2 hany)]
    have hread : Url.queryParameter.read w = Http.urlParameter.read w := by
      simp only [Url.queryParameter, hskip]
    cases hp : Http.urlParameter.read w with
    | none =>
      rw [hp] at hread
      simp [Follows.Round, heat, Reader.many_of_none hread, hskip]
    | some x =>
      rw [hp] at hread
      simp [Follows.Round, heat, Reader.many_of_some hread, Http.urlParameter.lt hp]

theorem follows_url : Follows url Http.url.read := by
  refine (follows_here.bind fun _ => follows_authority.bind fun authority =>
    (follows_runAfter Byte.slash Url.isSegmentByte).many.bind fun path =>
      (follows_require _).bind fun _ =>
        ((follows_eat Byte.question).ifFound (fun _ => follows_query) (follows_pure [])).bind
          fun _ => follows_here.bind fun _ => follows_pure _).congr fun w => ?_
  rw [Http.url, Option.bind_some]
  cases hauthority : Url.authority? w with
  | none => simp [hauthority]
  | some x =>
    obtain ⟨⟨server, port⟩, v⟩ := x
    have hreadPath : (Reader.runAfter Byte.slash Url.isSegmentByte).many v = Url.readPath v := rfl
    by_cases hpath : (Url.readPath v).1 = []
    · simp [hauthority, hreadPath, hpath]
    · cases hquestion : (Url.readPath v).2.eat? Byte.question <;>
        simp [hauthority, hreadPath, hpath, hquestion, Url.readQuery, spanTo]

end Scan

end Recognition.Http

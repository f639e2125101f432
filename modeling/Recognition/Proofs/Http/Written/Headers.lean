import Recognition.Http.Message
import Recognition.Proofs.Http.ValueScan
import Recognition.Proofs.Http.Written.Window

namespace Recognition.Http

open Window

/-- A name and a value, to be written on a line of their own. -/
structure HeaderLine where
  name : List UInt8
  value : List UInt8
  lineBreak : LineBreak
  name_ne_nil : name ≠ []
  name_bytes : ∀ b ∈ name, isSpace b = false ∧ b ≠ Byte.colon ∧ b ≠ 0
  value_bytes : ∀ b ∈ value, b ≠ Byte.lf ∧ b ≠ 0
  value_first : ∀ b ∈ value.head?, isSpace b = false
  value_last : ∀ b ∈ value.getLast?, isSpace b = false

namespace Header

variable {pos : Nat} {lead value trail line rest : List UInt8}

theorem trimmed_of_all (h : ∀ b ∈ lead, isSpace b = true) : trimmed pos lead = .empty pos := by
  simp [trimmed, List.dropWhile_eq_nil_iff.2 h]

theorem trimmed_append (hlead : ∀ b ∈ lead, isSpace b = true) (hne : value ≠ [])
    (hvalueFirst : ∀ b ∈ value.head?, isSpace b = false)
    (hvalueLast : ∀ b ∈ value.getLast?, isSpace b = false)
    (htrail : ∀ b ∈ trail, isSpace b = true) :
    trimmed pos (lead ++ (value ++ trail)) = .over (pos + lead.length) value := by
  have hfirst : Stops isSpace (value ++ trail) := .append hne hvalueFirst
  have hlast : Stops isSpace value.reverse := by
    intro b hb
    rw [List.head?_reverse] at hb
    exact hvalueLast b hb
  have hinner : (((lead ++ (value ++ trail)).dropWhile isSpace).reverse.dropWhile isSpace).length =
      value.length := by
    rw [List.dropWhile_append_of_pos hlead, hfirst.dropWhile, List.reverse_append,
      List.dropWhile_append_of_pos (by simpa using htrail), hlast.dropWhile, List.length_reverse]
  have hbefore : ((lead ++ (value ++ trail)).takeWhile isSpace).length = lead.length := by
    rw [List.takeWhile_append_of_pos hlead, hfirst.takeWhile, List.append_nil]
  rw [trimmed, hinner, hbefore, if_neg (by simpa using hne)]
  rfl

theorem lineCount_append (hline : Byte.lf ∉ line) :
    lineCount (line ++ rest) = line.length + lineCount rest := by
  induction line with
  | nil => simp
  | cons b line ih =>
    rw [List.mem_cons, not_or] at hline
    rw [List.cons_append, lineCount_cons (Ne.symm hline.1), ih hline.2, List.length_cons]
    omega

theorem lineCount_lineBreak (n : LineBreak) (hrest : continues rest = false) :
    lineCount (n.bytes ++ rest) = n.bytes.length := by
  have hlf : lineCount (Byte.lf :: rest) = 1 := by simp [lineCount, hrest]
  cases n with
  | lf => exact hlf
  | crlf => exact (lineCount_cons (by decide)).trans (congrArg (· + 1) hlf)

theorem continues_lineBreak (n : LineBreak) : continues (n.bytes ++ rest) = false := by
  cases n <;> simp [continues, LineBreak.bytes, isLineBreakAt]

end Header

theorem header_of_colon {w v u : Window} (hfirst : w.rest.head?.all isSpace = false)
    (hv : (w.skip fun b => b != Byte.colon && !isSpace b).skipInLine? = some v)
    (hu : v.eat? Byte.colon = some u) :
    header.read w = some
      (⟨w.spanTo (u.drop (Header.lineCount u.rest)),
        w.spanTo (w.skip fun b => b != Byte.colon && !isSpace b),
        Header.trimmed u.pos (u.rest.take (Header.lineCount u.rest))⟩,
        u.drop (Header.lineCount u.rest)) := by
  simp [header, hfirst, run, hv, hu]

namespace HeaderLine

variable {rest : List UInt8}

def bytes (l : HeaderLine) : List UInt8 :=
  l.name ++ Byte.colon :: 0x20 :: (l.value ++ l.lineBreak.bytes)

def header (pos : Nat) (l : HeaderLine) : Header where
  span := .over pos l.bytes
  name := .over pos l.name
  value :=
    if l.value = [] then .empty (pos + l.name.length + 1)
    else .over (pos + l.name.length + 2) l.value

theorem stops_name (l : HeaderLine) : Stops isSpace (l.name ++ rest) :=
  .append l.name_ne_nil fun b hb => (l.name_bytes b (List.mem_of_mem_head? hb)).1

theorem continues_bytes (l : HeaderLine) : Header.continues (l.bytes ++ rest) = false := by
  have hstops : Stops isSpace (l.bytes ++ rest) := by
    rw [bytes, List.append_assoc]
    exact l.stops_name
  cases hcons : l.bytes ++ rest with
  | nil => rfl
  | cons b bs => simp [Header.continues, Stops.cons_iff.1 (hcons ▸ hstops)]

theorem nul_notMem (l : HeaderLine) : 0 ∉ l.bytes := by
  have hname : 0 ∉ l.name := fun h => (l.name_bytes 0 h).2.2 rfl
  have hvalue : 0 ∉ l.value := fun h => (l.value_bytes 0 h).2 rfl
  simp [bytes, hname, hvalue, l.lineBreak.nul_notMem, Byte.colon]

theorem lineCount_eq (l : HeaderLine) (hrest : Header.continues rest = false) :
    Header.lineCount (0x20 :: (l.value ++ l.lineBreak.bytes) ++ rest) =
      (0x20 :: (l.value ++ l.lineBreak.bytes)).length := by
  have hline : Byte.lf ∉ 0x20 :: l.value := by
    rw [List.mem_cons, not_or]
    exact ⟨by decide, fun h => (l.value_bytes _ h).1 rfl⟩
  rw [← List.cons_append, List.append_assoc, Header.lineCount_append hline,
    Header.lineCount_lineBreak l.lineBreak hrest, List.length_append]

theorem trimmed_eq (l : HeaderLine) (pos : Nat) :
    Header.trimmed pos (0x20 :: (l.value ++ l.lineBreak.bytes)) =
      if l.value = [] then .empty pos else .over (pos + 1) l.value := by
  have hblank : ∀ b ∈ [(0x20 : UInt8)], isSpace b = true := by
    intro b hb
    obtain rfl := List.mem_singleton.1 hb
    rfl
  have hbreak : ∀ b ∈ l.lineBreak.bytes, isSpace b = true := fun b => LineBreak.isSpace_of_mem
  split
  · rename_i hnil
    rw [hnil]
    apply Header.trimmed_of_all
    rw [List.forall_mem_cons]
    exact ⟨rfl, hbreak⟩
  · rename_i hne
    exact Header.trimmed_append hblank hne l.value_first l.value_last hbreak

/-- A header line is read whatever comes after it that does not continue it. -/
theorem reads (l : HeaderLine) :
    Http.header.Reads (Header.continues · = false) l.bytes (l.header ·) := by
  intro pos rest hrest
  have hname : ∀ b ∈ l.name, (b != Byte.colon && !isSpace b) = true := by
    intro b hb
    simp [l.name_bytes b hb]
  have hfirst : (l.bytes ++ rest).head?.all isSpace = false := by
    obtain ⟨b, bs, hcons⟩ := List.exists_cons_of_ne_nil l.name_ne_nil
    have hb : isSpace b = false := (l.name_bytes b (by simp [hcons])).1
    simp [bytes, hcons, hb]
  -- What comes after the colon counts as a whole: the line ends with it.
  generalize hline : (0x20 :: (l.value ++ l.lineBreak.bytes) : List UInt8) = line
  have hbytes : l.bytes ++ rest = l.name ++ Byte.colon :: (line ++ rest) := by
    rw [bytes, hline, List.append_assoc, List.cons_append]
  have hskip : (⟨pos, l.name ++ Byte.colon :: (line ++ rest)⟩ : Window).skip
      (fun b => b != Byte.colon && !isSpace b) =
        ⟨pos + l.name.length, Byte.colon :: (line ++ rest)⟩ :=
    skip_append hname (Stops.cons_iff.2 (by decide))
  have hcolon : (⟨pos + l.name.length, Byte.colon :: (line ++ rest)⟩ : Window).skipInLine? =
      some ⟨pos + l.name.length, Byte.colon :: (line ++ rest)⟩ :=
    skipInLine?_of_stops (List.cons_ne_nil _ _) (Stops.cons_iff.2 (by decide))
  have hcount : Header.lineCount (line ++ rest) = line.length := hline ▸ l.lineCount_eq hrest
  have htrimmed := l.trimmed_eq (pos + l.name.length + 1)
  rw [hline] at htrimmed
  have hend : pos + l.name.length + 1 + line.length = pos + l.bytes.length := by
    rw [bytes, hline, List.length_append, List.length_cons]
    omega
  rw [hbytes, header_of_colon (by rw [← hbytes, hfirst]) (by rw [hskip, hcolon]) (eat?_cons _ _ _),
    hskip]
  simp only [hcount, drop_append, List.take_left, htrimmed, hend]
  rfl

def block (ls : List HeaderLine) : List UInt8 := ls.flatMap bytes

theorem nul_notMem_block (ls : List HeaderLine) : 0 ∉ block ls := by
  rw [block, List.mem_flatMap]
  rintro ⟨l, _, hl⟩
  exact l.nul_notMem hl

theorem many_block (ls : List HeaderLine) (n : LineBreak) (pos : Nat) (rest : List UInt8) :
    Http.header.many ⟨pos, block ls ++ (n.bytes ++ rest)⟩ =
      (inTurn bytes header pos ls, ⟨pos + (block ls).length, n.bytes ++ rest⟩) := by
  have hblank : ∀ pos, Http.header.read ⟨pos, n.bytes ++ rest⟩ = none := by
    intro pos
    cases n <;> rfl
  exact Reader.Reads.many (fun l _ => l.reads) (fun l _ _ => l.continues_bytes)
    (Header.continues_lineBreak n) hblank pos

theorem bytes_header {text : List UInt8} {pos : Nat} (l : HeaderLine)
    (h : StandsAt text pos l.bytes) :
    ((l.header pos).name.bytes text, (l.header pos).value.bytes text) = (l.name, l.value) := by
  obtain ⟨hname, hline⟩ := StandsAt.append_iff.1 h
  obtain ⟨hvalue, -⟩ := StandsAt.append_iff.1 hline.tail.tail
  have hbytes : (l.header pos).value.bytes text = l.value := by
    rw [header]
    split
    · rename_i hnil
      simp [Span.bytes, Span.empty, Span.length, hnil]
    · exact hvalue.bytes_over
  rw [hbytes]
  exact congrArg (·, l.value) hname.bytes_over

end HeaderLine

/-- A block of header lines that ends with a blank line is read as these headers and nothing else:
they follow each other from the first line to the blank line, and each has the name and the value
that its line was made of. -/
theorem headers_block {text before after : List UInt8} {stop : Option Nat} (ls : List HeaderLine)
    (blank : LineBreak) (htext : text = before ++ (HeaderLine.block ls ++ blank.bytes) ++ after)
    (hstop : ∀ e, stop = some e → (before ++ (HeaderLine.block ls ++ blank.bytes)).length ≤ e) :
    ∃ found, headers text before.length stop =
        (found, before.length + (HeaderLine.block ls).length) ∧
      found.map (fun h => (h.name.bytes text, h.value.bytes text)) =
        ls.map (fun l => (l.name, l.value)) ∧
      Abut before.length (before.length + (HeaderLine.block ls).length) (found.map Header.span) ∧
      found = inTurn HeaderLine.bytes HeaderLine.header before.length ls := by
  subst htext
  have hnul : 0 ∉ HeaderLine.block ls ++ blank.bytes := by
    rw [List.mem_append, not_or]
    exact ⟨HeaderLine.nul_notMem_block ls, blank.nul_notMem⟩
  obtain ⟨rest, hwindow⟩ := exists_of_eq after hnul hstop
  have htext := StandsAt.between before (HeaderLine.block ls ++ blank.bytes) after
  refine ⟨_, ?_, ?_, ?_, rfl⟩
  · rw [headers, hwindow, List.append_assoc, HeaderLine.many_block]
  · exact map_inTurn (fun l _ _ => l.bytes_header) (StandsAt.append_iff.1 htext).1
  · exact abut_inTurn (fun _ _ => rfl) ls before.length

/-- A value that is empty, and one with a carriage return inside, before a line that is no header
any more. -/
theorem headers_block_before_body :
    ∃ ls : List HeaderLine,
      "PUT".toUTF8.data.toList ++ (HeaderLine.block ls ++ LineBreak.crlf.bytes) ++
          "c: d\n".toUTF8.data.toList = "PUTa: \r\nb: x\ry\n\r\nc: d\n".toUTF8.data.toList ∧
      headers "PUTa: \r\nb: x\ry\n\r\nc: d\n".toUTF8.data.toList 3 none =
        ([⟨⟨3, 8⟩, ⟨3, 4⟩, ⟨5, 5⟩⟩, ⟨⟨8, 15⟩, ⟨8, 9⟩, ⟨11, 14⟩⟩], 15) := by
  let ls : List HeaderLine :=
    [⟨[0x61], [], .crlf, by decide, by simp; decide, by simp, by simp, by simp⟩,
      ⟨[0x62], [0x78, 0x0D, 0x79], .lf, by decide, by simp; decide, by simp; decide,
        by simp; decide, by simp; decide⟩]
  have htext : "PUTa: \r\nb: x\ry\n\r\nc: d\n".toUTF8.data.toList = "PUT".toUTF8.data.toList ++
      (HeaderLine.block ls ++ LineBreak.crlf.bytes) ++ "c: d\n".toUTF8.data.toList := by
    decide +kernel
  have hstop : ∀ e, none = some e → ("PUT".toUTF8.data.toList ++
      (HeaderLine.block ls ++ LineBreak.crlf.bytes)).length ≤ e := by
    simp
  obtain ⟨found, hfound, -, -, rfl⟩ := headers_block ls .crlf htext hstop
  exact ⟨ls, htext.symm, hfound⟩

end Recognition.Http

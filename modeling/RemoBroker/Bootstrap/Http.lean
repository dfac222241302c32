import RemoBroker.Bootstrap

/-! The parser of the metadata service's responses: what a response is, that `parse_http_response`
reads every response as what it is, and that it reads back what was rendered. -/

namespace RemoBroker

open Utf8 (encode)

/-- The bytes of a response with this header, status and body.  The header is the text before the
first empty line, and the status is the second word of its first line. -/
structure IsResponse (raw : List UInt8) (header : String) (status : UInt16) (body : List UInt8) :
    Prop where
  parts : raw = encode header.toList ++ headerEnd ++ body
  first : ∀ j < (encode header.toList).length, ¬headerEnd <+: raw.drop j
  status : ∃ line rest word, Str.lines header = line :: rest ∧
    (Str.splitWhitespace line)[1]? = some word ∧ Str.parseU16 word = some status

/-- What the broker makes of a response. -/
def answerOf (endpoint : String) (status : UInt16) (body : List UInt8) :
    Except BootstrapError String :=
  if 200 ≤ status ∧ status < 300 then .ok (Str.fromUtf8Lossy body)
  else .error (.imdsHttp endpoint status (Str.fromUtf8Lossy body))

section
variable {raw header body : List UInt8} {endpoint text : String} {status : UInt16}

theorem headerEnd_ne_nil : headerEnd ≠ [] := by decide

theorem parseStatus_eq_some : parseStatus header = some status ↔
    ∃ text, header = encode text.toList ∧ ∃ line rest word, Str.lines text = line :: rest ∧
      (Str.splitWhitespace line)[1]? = some word ∧ Str.parseU16 word = some status := by
  simp only [parseStatus, Option.bind_eq_bind, Option.bind_eq_some_iff, Str.fromUtf8_eq_some,
    List.head?_eq_some_iff]
  constructor
  · rintro ⟨text, htext, line, ⟨rest, hlines⟩, word, hword, hstatus⟩
    exact ⟨text, htext, line, rest, word, hlines, hword, hstatus⟩
  · rintro ⟨text, htext, line, rest, word, hlines, hword, hstatus⟩
    exact ⟨text, htext, line, ⟨rest, hlines⟩, word, hword, hstatus⟩

/-- The two slices are in range and give the parts around the separator. -/
theorem parseHttpResponse_of_parts (hparts : raw = header ++ headerEnd ++ body)
    (hfirst : ∀ j < header.length, ¬headerEnd <+: raw.drop j) :
    parseHttpResponse endpoint raw = match parseStatus header with
      | none => some (.error (.imdsMalformedResponse endpoint))
      | some status => some (answerOf endpoint status body) := by
  have hposition : Search.position headerEnd raw = some header.length :=
    (Search.position_eq_some headerEnd_ne_nil).mpr ⟨⟨header, body, hparts, rfl⟩, hfirst⟩
  have hto : sliceTo raw header.length = some header := by
    rw [sliceTo, if_pos (by simp [hparts]), hparts, List.append_assoc, List.take_left]
  have hfrom : sliceFrom raw (header.length + 4) = some body := by
    have hlen : header.length + 4 = (header ++ headerEnd).length := by simp [headerEnd]
    rw [sliceFrom, if_pos (by simp [hparts, headerEnd]), hlen, hparts, List.drop_left]
  unfold parseHttpResponse answerOf
  rw [hposition]
  simp only [hto, hfrom, Option.bind_eq_bind, Option.bind_some]
  cases parseStatus header with
  | none => rfl
  | some status => exact (apply_ite some ..).symm

theorem parseHttpResponse_malformed (h : ¬headerEnd <:+: raw) :
    parseHttpResponse endpoint raw = some (.error (.imdsMalformedResponse endpoint)) := by
  rw [parseHttpResponse, (Search.position_eq_none headerEnd_ne_nil).mpr h]

/-- A text has no separator, or is cut at its first one. -/
theorem exists_parts (h : headerEnd <:+: raw) : ∃ header body, raw = header ++ headerEnd ++ body ∧
    ∀ j < header.length, ¬headerEnd <+: raw.drop j := by
  cases hposition : Search.position headerEnd raw with
  | none => exact absurd h ((Search.position_eq_none headerEnd_ne_nil).mp hposition)
  | some sep =>
    obtain ⟨⟨header, body, hparts, rfl⟩, hfirst⟩ :=
      (Search.position_eq_some headerEnd_ne_nil).mp hposition
    exact ⟨header, body, hparts, hfirst⟩

theorem IsResponse.parse {header : String} (h : IsResponse raw header status body) :
    parseHttpResponse endpoint raw = some (answerOf endpoint status body) := by
  have hstatus : parseStatus (encode header.toList) = some status :=
    parseStatus_eq_some.mpr ⟨header, rfl, h.status⟩
  rw [parseHttpResponse_of_parts h.parts h.first, hstatus]

/-- Every byte string is a response or is answered as malformed. -/
theorem response_or_malformed (endpoint : String) (raw : List UInt8) :
    (∃ header status body, IsResponse raw header status body) ∨
      parseHttpResponse endpoint raw = some (.error (.imdsMalformedResponse endpoint)) := by
  by_cases hsep : headerEnd <:+: raw
  · obtain ⟨header, body, hparts, hfirst⟩ := exists_parts hsep
    cases hstatus : parseStatus header with
    | none =>
      right
      rw [parseHttpResponse_of_parts hparts hfirst, hstatus]
    | some status =>
      left
      obtain ⟨text, rfl, hline⟩ := parseStatus_eq_some.mp hstatus
      exact ⟨text, status, body, hparts, hfirst, hline⟩
  · exact .inr (parseHttpResponse_malformed hsep)

/-- No byte string makes the parser panic. -/
theorem parseHttpResponse_ne_none : parseHttpResponse endpoint raw ≠ none := by
  obtain ⟨header, status, body, h⟩ | h := response_or_malformed endpoint raw
  · simp [h.parse]
  · simp [h]

theorem answerOf_eq_ok : answerOf endpoint status body = .ok text ↔
    200 ≤ status ∧ status < 300 ∧ text = Str.fromUtf8Lossy body := by
  unfold answerOf
  split
  case isTrue h => simp [h, eq_comm]
  case isFalse h =>
    simp only [reduceCtorEq, false_iff]
    rintro ⟨hle, hlt, -⟩
    exact h ⟨hle, hlt⟩

theorem parseHttpResponse_eq_ok : parseHttpResponse endpoint raw = some (.ok text) ↔
    ∃ header status body, IsResponse raw header status body ∧ 200 ≤ status ∧ status < 300 ∧
      text = Str.fromUtf8Lossy body := by
  constructor
  · intro hok
    obtain ⟨header, status, body, h⟩ | h := response_or_malformed endpoint raw
    · rw [h.parse, Option.some.injEq, answerOf_eq_ok] at hok
      exact ⟨header, status, body, h, hok⟩
    · rw [h] at hok
      cases hok
  · rintro ⟨header, status, body, h, hanswer⟩
    rw [h.parse, answerOf_eq_ok.mpr hanswer]

end

/-! A response as a server renders it. -/

def crlf : List UInt8 := [13, 10]

def threeDigits (status : Nat) : String :=
  String.ofList [Nat.digitChar (status / 100 % 10), Nat.digitChar (status / 10 % 10),
    Nat.digitChar (status % 10)]

def statusLine (status : Nat) (reason : String) : String :=
  "HTTP/1.1 " ++ threeDigits status ++ " " ++ reason

def renderResponse (status : Nat) (reason : String) (headers : List String) (body : List UInt8) :
    List UInt8 :=
  encode (statusLine status reason).toList ++ crlf ++
    headers.flatMap (fun line => encode line.toList ++ crlf) ++ crlf ++ body

/-- A text without line ends. -/
structure OneLine (s : String) : Prop where
  noReturn : '\r' ∉ s.toList
  noNewline : '\n' ∉ s.toList

section
variable {l body : List UInt8} {ls : List (List UInt8)} {s reason : String} {headers : List String}
  {status : Nat}

theorem position_here : Search.position headerEnd (headerEnd ++ body) = some 0 := by
  have hhere : headerEnd <+: headerEnd ++ body := List.prefix_append ..
  exact (Search.position_cons headerEnd_ne_nil).trans (if_pos hhere)

/-- A line end before a line that is not empty is passed over. -/
theorem position_crlf {b : UInt8} (hb : b ≠ 13) :
    Search.position headerEnd (crlf ++ b :: l) =
      (Search.position headerEnd (b :: l)).map (· + 2) := by
  have hreturn : ¬headerEnd <+: 13 :: 10 :: b :: l := by
    simp [headerEnd, hb.symm]
  have hnewline : ¬headerEnd <+: 10 :: b :: l := by
    simp [headerEnd]
  rw [crlf, List.cons_append, List.cons_append, List.nil_append,
    Search.position_cons headerEnd_ne_nil, if_neg hreturn, Search.position_cons headerEnd_ne_nil,
    if_neg hnewline, Option.map_map]
  rfl

theorem position_line {rest : List UInt8} (hl : 13 ∉ l) :
    Search.position headerEnd (l ++ rest) =
      (Search.position headerEnd rest).map (· + l.length) :=
  Search.position_append hl

/-- The first empty line comes after the lines that are not empty. -/
theorem position_headerEnd (hl : 13 ∉ l) (hls : ∀ m ∈ ls, m ≠ [] ∧ 13 ∉ m) :
    Search.position headerEnd (l ++ (ls.flatMap (crlf ++ ·) ++ (headerEnd ++ body))) =
      some (l ++ ls.flatMap (crlf ++ ·)).length := by
  induction ls generalizing l with
  | nil => simp [position_line hl, position_here]
  | cons m ls ih =>
    obtain ⟨⟨hne, hm⟩, hrest⟩ := List.forall_mem_cons.mp hls
    have hnext := ih hm hrest
    obtain ⟨b, m, rfl⟩ := List.exists_cons_of_ne_nil hne
    have hb : b ≠ 13 := fun heq => hm (by simp [heq])
    rw [List.cons_append] at hnext
    rw [position_line hl, List.flatMap_cons, List.append_assoc, List.append_assoc,
      List.cons_append, position_crlf hb, hnext, Option.map_some, Option.map_some]
    congr 1
    simp only [crlf, List.length_append, List.length_cons, List.length_nil]
    omega

theorem noReturn_encode (h : OneLine s) : 13 ∉ encode s.toList := by
  have hmem : 13 ∈ encode s.toList ↔ '\r' ∈ s.toList :=
    Utf8.mem_encode_of_ascii (c := '\r') (by decide)
  exact mt hmem.mp h.noReturn

theorem digitChar_value {d : Nat} (h : d < 10) : (Nat.digitChar d).isDigit = true ∧
    (Nat.digitChar d).toNat - '0'.toNat = d := by
  decide +revert

theorem isWhitespace_digitChar {d : Nat} (h : d < 10) :
    Str.isWhitespace (Nat.digitChar d) = false := by
  decide +revert

theorem readU16_digitChar {n d : Nat} {cs : List Char} (hd : d < 10) (hfits : 10 * n + d < 2 ^ 16) :
    Str.readU16 n (Nat.digitChar d :: cs) = Str.readU16 (10 * n + d) cs := by
  obtain ⟨hdigit, hvalue⟩ := digitChar_value hd
  rw [Str.readU16, hvalue, if_pos ⟨hdigit, hfits⟩]

theorem toList_threeDigits : (threeDigits status).toList = [Nat.digitChar (status / 100 % 10),
    Nat.digitChar (status / 10 % 10), Nat.digitChar (status % 10)] :=
  String.toList_ofList

theorem toList_statusLine : (statusLine status reason).toList =
    "HTTP/1.1".toList ++ ' ' :: ((threeDigits status).toList ++ ' ' :: reason.toList) := by
  simp [statusLine, String.toList_append]

theorem isWhitespace_threeDigits :
    ∀ c ∈ (threeDigits status).toList, Str.isWhitespace c = false := by
  rw [toList_threeDigits]
  simp [isWhitespace_digitChar, Nat.mod_lt]

theorem oneLine_statusLine (h : OneLine reason) : OneLine (statusLine status reason) := by
  have hdigits : ∀ c, Str.isWhitespace c = true → c ∉ (threeDigits status).toList := by
    intro c hc hmem
    rw [isWhitespace_threeDigits c hmem] at hc
    cases hc
  constructor
  · rw [toList_statusLine]
    simp [hdigits '\r' (by decide), h.noReturn]
  · rw [toList_statusLine]
    simp [hdigits '\n' (by decide), h.noNewline]

theorem parseU16_threeDigits (h : status < 1000) :
    Str.parseU16 (threeDigits status) = some (UInt16.ofNat status) := by
  have hread : Str.readU16 0 (threeDigits status).toList = some status := by
    rw [toList_threeDigits, readU16_digitChar (by omega) (by omega),
      readU16_digitChar (by omega) (by omega), readU16_digitChar (by omega) (by omega),
      Str.readU16]
    congr 1
    omega
  have hskip : Str.skipPlus (threeDigits status).toList = (threeDigits status).toList := by
    unfold Str.skipPlus
    split
    · rename_i cs heq
      rw [toList_threeDigits] at heq
      have hdigit := (digitChar_value (d := status / 100 % 10) (by omega)).1
      rw [(List.cons.inj heq).1] at hdigit
      cases hdigit
    · rfl
  rw [Str.parseU16, hskip, hread, if_neg (by simp [toList_threeDigits])]
  rfl

/-- The header of a rendered response. -/
def headerText (status : Nat) (reason : String) (headers : List String) : String :=
  String.ofList ((statusLine status reason).toList ++
    headers.flatMap fun line => '\r' :: '\n' :: line.toList)

theorem encode_headerText : encode (headerText status reason headers).toList =
    encode (statusLine status reason).toList ++
      (headers.map fun line => encode line.toList).flatMap (crlf ++ ·) := by
  have hlines : encode (headers.flatMap fun line => '\r' :: '\n' :: line.toList) =
      (headers.map fun line => encode line.toList).flatMap (crlf ++ ·) := by
    induction headers with
    | nil => rfl
    | cons line headers ih =>
      rw [List.flatMap_cons, Utf8.encode_append, ih, List.map_cons, List.flatMap_cons]
      rfl
  rw [headerText, String.toList_ofList, Utf8.encode_append, hlines]

/-- The line ends after the lines are as many as those before the next ones. -/
theorem crlf_flatMap : crlf ++ headers.flatMap (fun line => encode line.toList ++ crlf) =
    (headers.map fun line => encode line.toList).flatMap (crlf ++ ·) ++ crlf := by
  induction headers with
  | nil => rfl
  | cons line headers ih =>
    rw [List.flatMap_cons, List.map_cons, List.flatMap_cons, List.append_assoc, ih]
    simp only [List.append_assoc]

theorem renderResponse_eq : renderResponse status reason headers body =
    encode (headerText status reason headers).toList ++ headerEnd ++ body := by
  have hjoin : headerEnd = crlf ++ crlf := rfl
  calc renderResponse status reason headers body
    _ = encode (statusLine status reason).toList ++
          (crlf ++ headers.flatMap fun line => encode line.toList ++ crlf) ++ crlf ++ body := by
        simp only [renderResponse, List.append_assoc]
    _ = encode (headerText status reason headers).toList ++ headerEnd ++ body := by
        rw [crlf_flatMap, encode_headerText, hjoin]
        simp only [List.append_assoc]

theorem lines_headerText (h : OneLine reason) :
    ∃ rest, Str.lines (headerText status reason headers) = statusLine status reason :: rest := by
  have hline : OneLine (statusLine status reason) := oneLine_statusLine h
  cases headers with
  | nil =>
    have hheader : headerText status reason [] = statusLine status reason := by simp [headerText]
    have hne : statusLine status reason ≠ "" := by
      intro hempty
      have hlist := congrArg String.toList hempty
      rw [toList_statusLine] at hlist
      cases hlist
    rw [hheader]
    exact ⟨[], Str.lines_of_last hne hline.noNewline⟩
  | cons line headers => exact ⟨_, Str.lines_append hline.noNewline⟩

theorem splitWhitespace_statusLine :
    (Str.splitWhitespace (statusLine status reason))[1]? = some (threeDigits status) := by
  have hall : "HTTP/1.1".toList.all (fun c => !Str.isWhitespace c) = true := by decide
  have hversion : ∀ c ∈ "HTTP/1.1".toList, Str.isWhitespace c = false := fun c hc => by
    simpa using List.all_eq_true.mp hall c hc
  rw [Str.splitWhitespace, toList_statusLine, Words.words_append hversion (by decide) (by decide),
    Words.words_append isWhitespace_threeDigits (by simp [toList_threeDigits]) (by decide)]
  simp

/-- What is rendered is a response with the status and the body that were given. -/
theorem isResponse_render (hstatus : status < 1000) (hreason : OneLine reason)
    (hheaders : ∀ line ∈ headers, line ≠ "" ∧ OneLine line) :
    IsResponse (renderResponse status reason headers body) (headerText status reason headers)
      (UInt16.ofNat status) body := by
  have hlines : ∀ m ∈ headers.map fun line => encode line.toList, m ≠ [] ∧ 13 ∉ m := by
    intro m hm
    obtain ⟨line, hline, rfl⟩ := List.mem_map.mp hm
    obtain ⟨hne, hone⟩ := hheaders line hline
    exact ⟨Utf8.encode_ne_nil (mt String.toList_eq_nil_iff.mp hne), noReturn_encode hone⟩
  have hposition : Search.position headerEnd (renderResponse status reason headers body) =
      some (encode (headerText status reason headers).toList).length := by
    rw [renderResponse_eq, encode_headerText, List.append_assoc, List.append_assoc]
    exact position_headerEnd (noReturn_encode (oneLine_statusLine hreason)) hlines
  refine ⟨renderResponse_eq, ((Search.position_eq_some headerEnd_ne_nil).mp hposition).2, ?_⟩
  obtain ⟨rest, hfirst⟩ := lines_headerText hreason
  exact ⟨_, rest, _, hfirst, splitWhitespace_statusLine, parseU16_threeDigits hstatus⟩

theorem ofNat_inRange (h : status < 1000) :
    200 ≤ UInt16.ofNat status ∧ UInt16.ofNat status < 300 ↔ 200 ≤ status ∧ status < 300 := by
  have hnat : (UInt16.ofNat status).toNat = status :=
    UInt16.toNat_ofNat_of_lt' (Nat.lt_trans h (by decide))
  rw [UInt16.le_iff_toNat_le, UInt16.lt_iff_toNat_lt, hnat]
  rfl

end

/-- The parser reads back what was rendered, finds every text without an empty line malformed, and
slices in range on every input. -/
theorem parse_http_response_inverts (endpoint : String) :
    (∀ status reason headers body, status < 1000 → OneLine reason →
      (∀ line ∈ headers, line ≠ "" ∧ OneLine line) →
      parseHttpResponse endpoint (renderResponse status reason headers body) =
        some (if 200 ≤ status ∧ status < 300 then .ok (Str.fromUtf8Lossy body)
          else .error (.imdsHttp endpoint (UInt16.ofNat status) (Str.fromUtf8Lossy body)))) ∧
    (∀ raw, ¬headerEnd <:+: raw →
      parseHttpResponse endpoint raw = some (.error (.imdsMalformedResponse endpoint))) ∧
    ∀ raw, parseHttpResponse endpoint raw ≠ none := by
  refine ⟨fun status reason headers body hstatus hreason hheaders => ?_,
    fun raw => parseHttpResponse_malformed, fun raw => parseHttpResponse_ne_none⟩
  rw [(isResponse_render hstatus hreason hheaders).parse, answerOf]
  simp only [ofNat_inRange hstatus]

/-- A body with an empty line in it, and a byte that is not UTF-8. -/
theorem parse_http_response_inverts_lossy :
    parseHttpResponse "/x" (renderResponse 200 "OK" ["Content-Length: 6"]
      [104, 13, 10, 13, 10, 255]) = some (.ok "h\r\n\r\n\uFFFD") :=
  (parse_http_response_inverts "/x").1 200 "OK" ["Content-Length: 6"] [104, 13, 10, 13, 10, 255]
    (by decide) ⟨by decide, by decide⟩ (by
      intro line hline
      obtain rfl : line = "Content-Length: 6" := by simpa using hline
      exact ⟨by decide, by decide, by decide⟩)

end RemoBroker

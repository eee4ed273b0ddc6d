import Arsh.Json.Serializer

/-!
# The transport of messages

`LSPTransport` of `analyzer/transport.cpp`, and the part of `Handler::dispatch` that reads a
message. What a descriptor delivers is a sequence of events: bytes, pauses at which a read returns
what it has got so far, and errors. Whatever messages are sent, and however their bytes are cut
into reads, the messages that are received are those that were sent, in order
(`receives_sent`); an error stops the receiver, but makes no other message of them.

The log is left out.
-/

namespace Arsh.Rpc

open Json (Bytes bytes toDecimal)
open Regex.Parser (byte)
open NumUtil

/-! ## Sending -/

def sysLimitInputSize : Nat := 0x3FFFFFFF

def headerLength : Bytes := bytes "Content-Length: "

/-- `LSPTransport::send`: the result, and what is written. -/
def send (data : Bytes) : Int × Bytes :=
  if data = [] then (0, [])
  else if sysLimitInputSize < data.length then (-1, [])
  else (data.length, headerLength ++ toDecimal data.length ++ bytes "\r\n\r\n" ++ data)

/-! ## Receiving -/

inductive Event where
  | byte (b : Nat)
  /-- what follows arrives later -/
  | pause
  /-- a read fails with `EINTR` or `EAGAIN` -/
  | interrupted
  /-- a read fails with another error -/
  | failed
  deriving DecidableEq, Repr

def isContentLength (line : Bytes) : Bool := headerLength.isPrefixOf line && 0 ∉ line

def parseContentLength (line : Bytes) : Int :=
  let ret := (parseSigned Width.w32.size (line.drop headerLength.length) 0 10).1
  if ret.kind = .ok ∧ 0 ≤ ret.value then ret.value else -1

/-- The line that a character ends in `readLine`, after the characters `header`. -/
def endLine (header : Bytes) (ch : Nat) : Option Bytes :=
  if ch = byte '\n' ∧ header.getLast? = some (byte '\r') then some header.dropLast
  else if ch = 0 then some header
  else none

/-- The size after a line of the header. -/
def lineSize (size : Int) (line : Bytes) : Int :=
  if isContentLength line then parseContentLength line else size

/-- `LSPTransport::recvSize`, with the loop of `readLine` in it, which has read `header`: one byte
at a time, and again after an interruption. -/
def recvSize : Bytes → Int → List Event → Int × List Event
  | _, _, [] => (-1, [])
  | header, size, .pause :: es => recvSize header size es
  | header, size, .interrupted :: es => recvSize header size es
  | _, _, .failed :: es => (-1, es)
  | header, size, .byte ch :: es =>
    (endLine header ch).elim (recvSize (header ++ [ch]) size es) fun line =>
      if line = [] then (size, es) else recvSize [] (lineSize size line) es

/-- At most `n` bytes that are there. -/
def readMore : Nat → List Event → Bytes × List Event
  | n + 1, .byte b :: es => ((readMore n es).1.cons b, (readMore n es).2)
  | _, es => ([], es)

/-- `LSPTransport::recv` of at least one byte: no bytes are the end of the stream. -/
def recv (size : Nat) : List Event → Option Bytes × List Event
  | [] => (some [], [])
  | .pause :: es => recv size es
  | .interrupted :: es => (none, es)
  | .failed :: es => (none, es)
  | .byte b :: es => (some ((readMore (size - 1) es).1.cons b), (readMore (size - 1) es).2)

inductive Recv where
  | message (data : Bytes)
  | nothing
  | error
  /-- reads for ever from a stream that has ended -/
  | hang
  deriving DecidableEq, Repr

def Recv.prepend (data : Bytes) : Recv → Recv
  | message data' => message (data ++ data')
  | r => r

/-- The loop of `Handler::dispatch` over the reads of a message. -/
def recvData : Nat → Nat → List Event → Recv × List Event
  | _, 0, es => (.message [], es)
  | 0, _ + 1, es => (.hang, es)
  | fuel + 1, remain + 1, es =>
    (recv (min (remain + 1) 256) es).1.elim (.error, (recv (min (remain + 1) 256) es).2)
      fun data =>
        Prod.map (Recv.prepend data) id
          (recvData fuel (remain + 1 - data.length) (recv (min (remain + 1) 256) es).2)

/-- The part of `Handler::dispatch` that reads a message. -/
def receive (es : List Event) : Recv × List Event :=
  let size := recvSize [] 0 es
  if size.1 < 0 then (.error, size.2)
  else if size.1 = 0 then (.nothing, size.2)
  else recvData size.1.toNat size.1.toNat size.2

/-- `LSPServer::run` has received these messages, and no error. -/
inductive Receives : List Event → List Bytes → List Event → Prop where
  | nil {es : List Event} : Receives es [] es
  | message {es es' es'' : List Event} {data : Bytes} {ms : List Bytes}
    (h : receive es = (.message data, es')) (hs : Receives es' ms es'') :
    Receives es (data :: ms) es''
  | nothing {es es' es'' : List Event} {ms : List Bytes} (h : receive es = (.nothing, es'))
    (hs : Receives es' ms es'') : Receives es ms es''

/-! ## Streams -/

/-- The bytes of a stream. -/
def bytesOf : List Event → Bytes
  | [] => []
  | .byte b :: es => b :: bytesOf es
  | .pause :: es => bytesOf es
  | .interrupted :: es => bytesOf es
  | .failed :: es => bytesOf es

-- The equations are made here, once, and not inside the proofs that unfold a definition.
attribute [local grind =] recvSize readMore recv recvData bytesOf

/-- No read fails. -/
def Clean (es : List Event) : Prop := ∀ e ∈ es, e ≠ .interrupted ∧ e ≠ .failed

/-- A line of the header, without its end. -/
def HeaderLine (line : Bytes) : Prop := line ≠ [] ∧ 0 ∉ line ∧ byte '\n' ∉ line

def lengthLine (data : Bytes) : Bytes := headerLength ++ toDecimal data.length

def headerText (lines : List Bytes) : Bytes := lines.flatMap (· ++ bytes "\r\n") ++ bytes "\r\n"

/-- A message with its header, which may have other lines. -/
def Framed (data text : Bytes) : Prop :=
  data ≠ [] ∧ data.length ≤ sysLimitInputSize ∧ ∃ before after : List Bytes,
    (∀ line ∈ before ++ after, HeaderLine line) ∧ (∀ line ∈ after, isContentLength line = false) ∧
      text = headerText (before ++ lengthLine data :: after) ++ data

section
variable {es : List Event} {header line data text tail : Bytes} {size : Int} {n fuel : Nat}

/-! ## The header -/

/-- The end of a line, of which the carriage return has been read. -/
theorem recvSize_newline (header : Bytes) (size : Int)
    (hbytes : bytesOf es = byte '\n' :: tail) :
    ∃ es', es' <:+ es ∧ bytesOf es' = tail ∧
      (recvSize (header ++ [byte '\r']) size es =
          (if header = [] then (size, es') else recvSize [] (lineSize size header) es') ∨
        ¬Clean es ∧ (recvSize (header ++ [byte '\r']) size es).1 = -1) := by
  induction es with
  | nil => cases hbytes
  | cons e es ih =>
    cases e with
    | byte ch =>
      cases hbytes
      refine ⟨es, List.suffix_cons _ _, rfl, .inl ?_⟩
      rw [recvSize, endLine, if_pos ⟨rfl, List.getLast?_concat⟩, List.dropLast_concat]
      rfl
    | failed =>
      obtain ⟨es', hsuffix, hes', -⟩ := ih hbytes
      refine ⟨es', hsuffix.trans (List.suffix_cons _ _), hes', .inr ⟨fun h => ?_, rfl⟩⟩
      exact (h _ List.mem_cons_self).2 rfl
    | pause | interrupted =>
      obtain ⟨es', hsuffix, hes', hcase⟩ := ih hbytes
      refine ⟨es', hsuffix.trans (List.suffix_cons _ _), hes', hcase.imp id fun h => ⟨?_, h.2⟩⟩
      exact fun hclean => h.1 fun e he => hclean e (List.mem_cons_of_mem _ he)

/-- A line is read up to its end. -/
theorem recvSize_line (header line : Bytes) (size : Int) (hzero : 0 ∉ line)
    (hnewline : byte '\n' ∉ line) (hbytes : bytesOf es = line ++ (bytes "\r\n" ++ tail)) :
    ∃ es', es' <:+ es ∧ bytesOf es' = tail ∧
      (recvSize header size es =
          (if header ++ line = [] then (size, es')
            else recvSize [] (lineSize size (header ++ line)) es') ∨
        ¬Clean es ∧ (recvSize header size es).1 = -1) := by
  induction es generalizing header line with
  | nil =>
    cases line with
    | nil => cases hbytes
    | cons ch line => cases hbytes
  | cons e es ih =>
    cases e with
    | byte ch =>
      cases line with
      | nil =>
        have hcons : ch = byte '\r' ∧ bytesOf es = byte '\n' :: tail := List.cons.inj hbytes
        obtain ⟨rfl, hrest⟩ := hcons
        obtain ⟨es', hsuffix, hes', hcase⟩ :=
          recvSize_newline header size hrest
        refine ⟨es', hsuffix.trans (List.suffix_cons _ _), hes', ?_⟩
        have hne : ¬(byte '\r' = byte '\n' ∧ header.getLast? = some (byte '\r')) :=
          fun h => absurd h.1 (by decide)
        rw [recvSize, endLine, if_neg hne, if_neg (by decide), List.append_nil]
        exact hcase.imp id fun h => ⟨fun hclean => h.1 fun e he =>
          hclean e (List.mem_cons_of_mem _ he), h.2⟩
      | cons c line =>
        obtain ⟨rfl, hrest⟩ := List.cons.inj hbytes
        rw [List.mem_cons, not_or] at hzero hnewline
        obtain ⟨es', hsuffix, hes', hcase⟩ :=
          ih (header ++ [ch]) line hzero.2 hnewline.2 hrest
        refine ⟨es', hsuffix.trans (List.suffix_cons _ _), hes', ?_⟩
        rw [recvSize, endLine, if_neg fun h => hnewline.1 h.1.symm, if_neg (Ne.symm hzero.1)]
        rw [List.append_assoc, List.singleton_append] at hcase
        exact hcase.imp id fun h => ⟨fun hclean => h.1 fun e he =>
          hclean e (List.mem_cons_of_mem _ he), h.2⟩
    | failed =>
      obtain ⟨es', hsuffix, hes', -⟩ := ih header line hzero hnewline hbytes
      refine ⟨es', hsuffix.trans (List.suffix_cons _ _), hes', .inr ⟨fun h => ?_, rfl⟩⟩
      exact (h _ List.mem_cons_self).2 rfl
    | pause | interrupted =>
      obtain ⟨es', hsuffix, hes', hcase⟩ := ih header line hzero hnewline hbytes
      refine ⟨es', hsuffix.trans (List.suffix_cons _ _), hes', hcase.imp id fun h => ⟨?_, h.2⟩⟩
      exact fun hclean => h.1 fun e he => hclean e (List.mem_cons_of_mem _ he)

theorem Clean.of_suffix {es' : List Event} (h : Clean es) (hsuffix : es' <:+ es) : Clean es' :=
  fun e he => h e (hsuffix.subset he)

/-- The lines of a header are read up to the empty one. -/
theorem recvSize_header (size : Int) {lines : List Bytes}
    (hlines : ∀ line ∈ lines, HeaderLine line) (hbytes : bytesOf es = headerText lines ++ tail) :
    ∃ es', es' <:+ es ∧ bytesOf es' = tail ∧
      (recvSize [] size es = (lines.foldl lineSize size, es') ∨
        ¬Clean es ∧ (recvSize [] size es).1 = -1) := by
  induction lines generalizing es size with
  | nil =>
    obtain ⟨es', hsuffix, hes', hcase⟩ := recvSize_line [] [] size
      (List.not_mem_nil) (List.not_mem_nil) hbytes
    exact ⟨es', hsuffix, hes', hcase⟩
  | cons line lines ih =>
    rw [List.forall_mem_cons] at hlines
    obtain ⟨⟨hne, hzero, hnewline⟩, hlines⟩ := hlines
    have hbytes' : bytesOf es = line ++ (bytes "\r\n" ++ (headerText lines ++ tail)) := by
      rw [hbytes]
      simp only [headerText, List.flatMap_cons, List.append_assoc]
    obtain ⟨es₁, hsuffix₁, hes₁, hcase₁⟩ :=
      recvSize_line [] line size hzero hnewline hbytes'
    obtain ⟨es', hsuffix, hes', hcase⟩ := ih (lineSize size line) hlines hes₁
    refine ⟨es', hsuffix.trans hsuffix₁, hes', ?_⟩
    rcases hcase₁ with heq | hfail
    · rw [List.nil_append, if_neg hne] at heq
      rw [heq, List.foldl_cons]
      exact hcase.imp id fun h => ⟨fun hclean => h.1 (hclean.of_suffix hsuffix₁), h.2⟩
    · exact .inr hfail

theorem foldl_lineSize {lines : List Bytes} (h : ∀ line ∈ lines, isContentLength line = false) :
    lines.foldl lineSize size = size := by
  induction lines generalizing size with
  | nil => rfl
  | cons line lines ih =>
    rw [List.forall_mem_cons] at h
    rw [List.foldl_cons, lineSize, h.1]
    exact ih h.2

/-- The length of a message is read back from its line. -/
theorem lengthLine_spec (hlen : data.length ≤ sysLimitInputSize) :
    HeaderLine (lengthLine data) ∧ isContentLength (lengthLine data) ∧
      parseContentLength (lengthLine data) = data.length := by
  unfold sysLimitInputSize at hlen
  obtain ⟨-, hdigits, hnumeral⟩ := Json.toDecimal_spec (n := data.length) (by omega)
  have hnot {ch : Nat} (hheader : ch ∉ headerLength) (hdigit : ¬Regex.Parser.isDigit ch) :
      ch ∉ lengthLine data := fun hmem =>
    (List.mem_append.1 hmem).elim hheader fun hmem => hdigit (hdigits ch hmem)
  have hzero : 0 ∉ lengthLine data := hnot (by decide) (by decide)
  refine ⟨⟨List.append_ne_nil_of_left_ne_nil (by decide) _, hzero, hnot (by decide) (by decide)⟩,
    ?_, ?_⟩
  · unfold isContentLength
    rw [Bool.and_eq_true, List.isPrefixOf_iff_prefix, decide_eq_true_eq]
    exact ⟨List.prefix_append _ _, hzero⟩
  · have hfits : Fits Width.w32.size (data.length : Int) := by
      change -((0x100000000 / 2 : Nat) : Int) ≤ _ ∧ _ < ((0x100000000 / 2 : Nat) : Int)
      omega
    obtain ⟨hspec, -⟩ := @parseSigned_spec 10 Width.w32.size (toDecimal data.length)
      (.inr (by decide)) (by decide) (by decide) 0
    obtain ⟨hok, hvalue⟩ := (hspec data.length (.inl ⟨_, rfl, .inl hnumeral⟩)).1 hfits
    unfold parseContentLength lengthLine
    rw [List.drop_left]
    dsimp only
    rw [hok, hvalue, if_pos ⟨rfl, Int.natCast_nonneg _⟩]

/-! ## The data -/

theorem readMore_spec (n : Nat) (es : List Event) :
    (readMore n es).2 <:+ es ∧ bytesOf es = (readMore n es).1 ++ bytesOf (readMore n es).2 ∧
      (readMore n es).1.length ≤ n := by
  induction n generalizing es with
  | zero => exact ⟨List.suffix_refl _, rfl, Nat.le_refl _⟩
  | succ n ih =>
    cases es with
    | nil => exact ⟨List.suffix_refl _, rfl, Nat.zero_le _⟩
    | cons e es =>
      cases e with
      | byte b =>
        obtain ⟨hsuffix, hbytes, hlen⟩ := ih es
        exact ⟨hsuffix.trans (List.suffix_cons _ _), congrArg (b :: ·) hbytes,
          Nat.succ_le_succ hlen⟩
      | pause | interrupted | failed => exact ⟨List.suffix_refl _, rfl, Nat.zero_le _⟩

/-- A read of a stream that has not ended gives bytes, or fails. -/
theorem recv_spec {b : Nat} {bs : Bytes} (hn : 0 < n) (hbytes : bytesOf es = b :: bs) :
    (recv n es).2 <:+ es ∧
      ((∃ d, (recv n es).1 = some d ∧ 0 < d.length ∧ d.length ≤ n ∧
          bytesOf es = d ++ bytesOf (recv n es).2) ∨
        ¬Clean es ∧ (recv n es).1 = none) := by
  induction es with
  | nil => cases hbytes
  | cons e es ih =>
    cases e with
    | byte b' =>
      obtain ⟨hsuffix, hmore, hlen⟩ := readMore_spec (n - 1) es
      refine ⟨hsuffix.trans (List.suffix_cons _ _), .inl ⟨_, rfl, Nat.succ_pos _, ?_, ?_⟩⟩
      · rw [List.length_cons]
        omega
      · exact congrArg (b' :: ·) hmore
    | pause =>
      obtain ⟨hsuffix, hcase⟩ := ih hbytes
      refine ⟨hsuffix.trans (List.suffix_cons _ _), hcase.imp id fun h => ⟨?_, h.2⟩⟩
      exact fun hclean => h.1 fun e he => hclean e (List.mem_cons_of_mem _ he)
    | interrupted =>
      exact ⟨List.suffix_cons _ _, .inr ⟨fun h => (h _ List.mem_cons_self).1 rfl, rfl⟩⟩
    | failed =>
      exact ⟨List.suffix_cons _ _, .inr ⟨fun h => (h _ List.mem_cons_self).2 rfl, rfl⟩⟩

theorem recvData_spec (hfuel : data.length ≤ fuel) (hbytes : bytesOf es = data ++ tail) :
    (recvData fuel data.length es).2 <:+ es ∧
      ((recvData fuel data.length es).1 = .message data ∧
          bytesOf (recvData fuel data.length es).2 = tail ∨
        ¬Clean es ∧ (recvData fuel data.length es).1 = .error) := by
  induction fuel generalizing data es with
  | zero =>
    obtain rfl := List.eq_nil_of_length_eq_zero (Nat.le_zero.1 hfuel)
    exact ⟨List.suffix_refl _, .inl ⟨rfl, hbytes⟩⟩
  | succ fuel ih =>
    cases data with
    | nil => exact ⟨List.suffix_refl _, .inl ⟨rfl, hbytes⟩⟩
    | cons b data =>
      obtain ⟨hsuffix, hcase⟩ :=
        recv_spec (n := min (data.length + 1) 256) (Nat.lt_min.2 ⟨Nat.succ_pos _, by decide⟩) hbytes
      rw [List.length_cons, recvData]
      rcases hcase with ⟨d, hd, hpos, hle, hrest⟩ | ⟨hclean, hd⟩
      · rw [hd]
        dsimp only [Option.elim_some]
        -- what is read is the beginning of the data
        obtain ⟨data', hdata⟩ : d <+: b :: data := by
          refine List.prefix_of_prefix_length_le ⟨_, hrest.symm⟩ ⟨tail, hbytes.symm⟩ ?_
          exact Nat.le_trans hle (Nat.min_le_left _ _)
        have hlen : data.length + 1 - d.length = data'.length := by
          have := congrArg List.length hdata
          rw [List.length_append, List.length_cons] at this
          omega
        have hbytes' : bytesOf (recv (min (data.length + 1) 256) es).2 = data' ++ tail := by
          rw [hbytes, ← hdata, List.append_assoc] at hrest
          exact (List.append_cancel_left hrest).symm
        have hfuel' : data'.length ≤ fuel := by
          rw [List.length_cons] at hfuel
          omega
        obtain ⟨hsuffix', hcase'⟩ := ih hfuel' hbytes'
        rw [hlen]
        refine ⟨hsuffix'.trans hsuffix, ?_⟩
        rcases hcase' with ⟨hmessage, htail⟩ | ⟨hclean, herror⟩
        · refine .inl ⟨?_, htail⟩
          show Recv.prepend d _ = _
          rw [hmessage, ← hdata]
          rfl
        · refine .inr ⟨fun h => hclean (h.of_suffix hsuffix), ?_⟩
          show Recv.prepend d _ = _
          rw [herror]
          rfl
      · rw [hd]
        exact ⟨hsuffix, .inr ⟨hclean, rfl⟩⟩

/-! ## Messages -/

/-- A message is received, or a read fails. -/
theorem receive_framed (htext : Framed data text) (hbytes : bytesOf es = text ++ tail) :
    (∃ es', receive es = (.message data, es') ∧ es' <:+ es ∧ bytesOf es' = tail) ∨
      ¬Clean es ∧ (receive es).1 = .error := by
  obtain ⟨hne, hlen, before, after, hlines, hafter, rfl⟩ := htext
  obtain ⟨hline, hlength, hsize⟩ := lengthLine_spec hlen
  rw [List.append_assoc] at hbytes
  have hall : ∀ line ∈ before ++ lengthLine data :: after, HeaderLine line := by
    rw [List.forall_mem_append] at hlines
    exact List.forall_mem_append.2 ⟨hlines.1, List.forall_mem_cons.2 ⟨hline, hlines.2⟩⟩
  obtain ⟨es', hsuffix, hes', hcase⟩ := recvSize_header 0 hall hbytes
  rw [List.foldl_append, List.foldl_cons, foldl_lineSize hafter, lineSize, if_pos hlength,
    hsize] at hcase
  have hpos : 0 < data.length := List.length_pos_iff.2 hne
  unfold receive
  dsimp only
  rcases hcase with heq | ⟨hclean, herror⟩
  · rw [heq]
    dsimp only
    rw [if_neg (by omega), if_neg (by omega), Int.toNat_natCast]
    obtain ⟨hsuffix', ⟨hmessage, htail⟩ | ⟨hclean, herror⟩⟩ :=
      recvData_spec (Nat.le_refl _) hes'
    · exact .inl ⟨_, Prod.ext hmessage rfl, hsuffix'.trans hsuffix, htail⟩
    · exact .inr ⟨fun h => hclean (h.of_suffix hsuffix), herror⟩
  · rw [herror, if_pos (by decide)]
    exact .inr ⟨hclean, rfl⟩

theorem receive_nil (hbytes : bytesOf es = []) : (receive es).1 = .error := by
  have hsize : (recvSize [] 0 es).1 = -1 := by
    induction es with
    | nil => rfl
    | cons e es ih =>
      cases e with
      | byte b => cases hbytes
      | failed => rfl
      | pause | interrupted => exact ih hbytes
  unfold receive
  dsimp only
  rw [hsize, if_pos (by decide)]

/-- What is sent is a message with its header. -/
theorem framed_send (hne : data ≠ []) (hlen : data.length ≤ sysLimitInputSize) :
    Framed data (send data).2 := by
  refine ⟨hne, hlen, [], [], List.forall_mem_nil _, List.forall_mem_nil _, ?_⟩
  unfold send
  rw [if_neg hne, if_neg (Nat.not_lt.2 hlen)]
  simp only [headerText, lengthLine, bytes, List.nil_append, List.flatMap_cons, List.flatMap_nil,
    List.append_assoc, List.append_nil]
  rfl

/-- What has been received is the beginning of what was sent. -/
theorem Receives.isPrefix {es' : List Event} {ds ms texts : List Bytes} (h : Receives es ds es')
    (htexts : List.Forall₂ Framed ms texts) (hes : bytesOf es = texts.flatten) : ds <+: ms := by
  induction h generalizing ms texts with
  | nil => exact List.nil_prefix
  | @message es es' _ data ds hreceive _ ih =>
    cases htexts with
    | nil =>
      rw [List.flatten_nil] at hes
      have herror := receive_nil hes
      rw [hreceive] at herror
      cases herror
    | @cons m text ms texts hm htexts =>
      rw [List.flatten_cons] at hes
      rcases receive_framed hm hes with ⟨es₁, heq, -, hes₁⟩ | ⟨-, herror⟩
      · rw [hreceive] at heq
        cases heq
        exact List.cons_prefix_cons.2 ⟨rfl, ih htexts hes₁⟩
      · rw [hreceive] at herror
        cases herror
  | @nothing es es' _ ds hreceive _ _ =>
    cases htexts with
    | nil =>
      have herror := @receive_nil es hes
      rw [hreceive] at herror
      cases herror
    | @cons m text ms texts hm htexts =>
      rw [List.flatten_cons] at hes
      rcases receive_framed hm hes with ⟨es₁, heq, -⟩ | ⟨-, herror⟩
      · rw [hreceive] at heq
        cases heq
      · rw [hreceive] at herror
        cases herror

/-- Without errors everything is received, up to the end of the stream. -/
theorem Clean.receives {ms texts : List Bytes} (hclean : Clean es)
    (htexts : List.Forall₂ Framed ms texts) (hes : bytesOf es = texts.flatten) :
    ∃ es', Receives es ms es' ∧ (receive es').1 = .error := by
  induction htexts generalizing es with
  | nil => exact ⟨es, .nil, receive_nil hes⟩
  | @cons m text ms texts hm _ ih =>
    rw [List.flatten_cons] at hes
    rcases receive_framed hm hes with ⟨es₁, heq, hsuffix, hes₁⟩ | ⟨hnot, -⟩
    · obtain ⟨es', hreceives, herror⟩ := ih (hclean.of_suffix hsuffix) hes₁
      exact ⟨es', .message heq hreceives, herror⟩
    · exact absurd hclean hnot

/-- However the bytes of messages arrive, the messages that are received before an error are the
first ones that were sent; without a failing read they are all of them. -/
theorem receives_sent {ms texts : List Bytes} (htexts : List.Forall₂ Framed ms texts)
    (hes : bytesOf es = texts.flatten) :
    (∀ ds es', Receives es ds es' → ds <+: ms) ∧
      (Clean es → ∃ es', Receives es ms es' ∧ (receive es').1 = .error) :=
  ⟨fun _ _ h => h.isPrefix htexts hes, fun hclean => hclean.receives htexts hes⟩

/-- Two messages whose bytes arrive in two parts, cut in the second header. -/
def sampleStream : List Event :=
  ((send (bytes "\x7b\x7d")).2 ++ bytes "Content-Le").map .byte ++
    .pause :: (bytes "ngth: 1\r\n\r\n" ++ bytes "1").map .byte

theorem receives_sent_sample :
    ∃ es', Receives sampleStream [bytes "\x7b\x7d", bytes "1"] es' ∧ (receive es').1 = .error := by
  have hframed := List.Forall₂.cons (@framed_send (bytes "\x7b\x7d") (by decide) (by decide))
    (.cons (@framed_send (bytes "1") (by decide) (by decide)) .nil)
  refine (@receives_sent sampleStream _ _ hframed (by decide)).2 ?_
  unfold Clean
  decide

end

end Arsh.Rpc

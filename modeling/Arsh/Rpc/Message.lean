import Arsh.Json.Serializer

/-!
# The messages of JSON-RPC

Requests and responses of `jsonrpc.{h,cpp}`, the texts that `RawJSONSerializer` makes of them, and
`MessageParser` with the part of `JSONDeserializerImpl` that it uses. Parameters and results are
serialized before the message is; so a message is made of texts, and is parsed to one of values
(`parseMessage_text`).

A message without a method is a response; a response that cannot be read is an error, and so is the
response that stands for a text which is no message.
-/

namespace Arsh.Rpc

open Json
open Regex.Parser (byte)
open UnicodeUtil NumUtil

/-- What the model does not say: how a number with a fraction is read and written, and what
`formatError` makes of an error in a text. -/
structure Env where
  toDouble : Bytes → Option Double
  fromDouble : Double → Bytes
  formatError : Bytes → ParseError → Bytes

/-- A text that is serialized already; no text is no value. -/
abbrev RawJSON := Bytes

/-- `ErrorCode`. -/
def parseErrorCode : Int := -32700
def invalidRequest : Int := -32600
def methodNotFound : Int := -32601

structure Error where
  code : Int
  message : Bytes
  /-- invalid if there is none -/
  data : JSON

/-- A request; one without an id is a notification. -/
structure RequestBase (α : Type) where
  jsonrpc : Bytes
  id : JSON
  method : Bytes
  params : α

abbrev Request := RequestBase JSON
abbrev RawRequest := RequestBase RawJSON

structure Response where
  jsonrpc : Bytes
  id : JSON
  result : Option (JSON ⊕ RawJSON)
  error : Option Error

def version : Bytes := bytes "2.0"

def JSON.isNull : JSON → Bool
  | .null => true
  | _ => false

def RequestBase.isCall {α : Type} (req : RequestBase α) : Bool :=
  !req.id.isInvalid && !JSON.isNull req.id

/-! ## Writing -/

/-- A member of an object, with the comma that `appendFieldWith` puts behind it. -/
def field (name : String) (value : Bytes) : Bytes :=
  quote (bytes name) ++ bytes ":" ++ value ++ bytes ","

def popSep (data : Bytes) : Bytes :=
  if data.getLast? = some (byte ',') then data.dropLast else data

/-- The text of an object. -/
def object (fields : List Bytes) : Bytes := popSep (bytes "\x7b" ++ fields.flatten) ++ bytes "\x7d"

def rawField (name : String) (raw : RawJSON) : Bytes := if raw = [] then [] else field name raw

section
variable (E : Env)

def jsonField (name : String) (v : JSON) : Bytes :=
  if v.isInvalid then [] else field name (v.serialize E.fromDouble 0)

def Error.text (e : Error) : Bytes :=
  object [field "code" (Json.toString e.code), field "message" (quote e.message),
    jsonField E "data" e.data]

def RequestBase.text (req : RawRequest) : Bytes :=
  object [field "jsonrpc" (quote req.jsonrpc), jsonField E "id" req.id,
    field "method" (quote req.method), rawField "params" req.params]

def resultField (result : Option (JSON ⊕ RawJSON)) : Bytes :=
  result.elim [] (Sum.elim (jsonField E "result") (rawField "result"))

def Response.text (res : Response) : Bytes :=
  object [jsonField E "id" res.id, field "jsonrpc" (quote res.jsonrpc), resultField E res.result,
    res.error.elim [] fun e => field "error" (e.text E)]

end

/-! ## Reading -/

/-- `getJSONTypeStr`. -/
def typeStr : JSON → Bytes
  | .invalid => bytes "invalid"
  | .null => bytes "null"
  | .bool _ => bytes "bool"
  | .long _ => bytes "long"
  | .double _ => bytes "double"
  | .string _ => bytes "string"
  | .array _ => bytes "array"
  | .object _ => bytes "object"

def requireText (type : String) (v : JSON) : Bytes :=
  bytes "require `" ++ bytes type ++ bytes "', but is `" ++ typeStr v ++ bytes "'"

/-- `validateField` of an object that is no field. -/
def members : JSON → Except Bytes (List (Bytes × JSON))
  | .object ms => .ok ms
  | v => .error (requireText "object" v)

section
variable (ms : List (Bytes × JSON)) (name : String)

/-- `validateField` of a field that may have any type. -/
def anyField : Except Bytes JSON :=
  (ms.lookup (bytes name)).elim (.error (bytes "undefined field `" ++ bytes name ++ bytes "'")) .ok

def optionalField : JSON := (ms.lookup (bytes name)).getD .invalid

def typeError (type : String) (v : JSON) : Bytes :=
  bytes "field `" ++ bytes name ++ bytes "'" ++ requireText type v

def stringField : Except Bytes Bytes := do
  match ← anyField ms name with
  | .string s => .ok s
  | v => .error (typeError name "string" v)

/-- A field for an `int`, which takes the lowest bits of what it gets. -/
def intField : Except Bytes Int := do
  match ← anyField ms name with
  | .long z => .ok (z.bmod 0x100000000)
  | v => .error (typeError name "long" v)

end

def Request.ofJSON (v : JSON) : Except Bytes Request := do
  let ms ← members v
  let jsonrpc ← stringField ms "jsonrpc"
  let method ← stringField ms "method"
  .ok ⟨jsonrpc, optionalField ms "id", method, optionalField ms "params"⟩

def Error.ofJSON (v : JSON) : Except Bytes Error := do
  let ms ← members v
  let code ← intField ms "code"
  let message ← stringField ms "message"
  .ok ⟨code, message, optionalField ms "data"⟩

def errorField (v : JSON) : Except Bytes (Option Error) :=
  if v.isInvalid then .ok none else (Error.ofJSON v).map some

def resultOf (v : JSON) : Option (JSON ⊕ RawJSON) := if v.isInvalid then none else some (.inl v)

def Response.ofJSON (v : JSON) : Except Bytes Response := do
  let ms ← members v
  let id ← anyField ms "id"
  let jsonrpc ← stringField ms "jsonrpc"
  let error ← errorField (optionalField ms "error")
  .ok ⟨jsonrpc, id, resultOf (optionalField ms "result"), error⟩

inductive Message where
  | request (req : Request)
  | response (res : Response)

def Response.ofError (id : JSON) (error : Error) : Response := ⟨version, id, none, some error⟩

/-- The response that stands for a text which is no message. -/
def errorMessage (code : Int) (message : String) (data : Bytes) : Message :=
  .response (.ofError .null ⟨code, bytes message, .string data⟩)

def checkRequest (req : Request) : Message :=
  match req.id with
  | .bool _ | .array _ | .object _ =>
    errorMessage invalidRequest "Invalid Request" (bytes "id must be null|string|number")
  | _ =>
    match req.params with
    | .invalid | .null | .array _ | .object _ => .request req
    | _ => errorMessage invalidRequest "Invalid Request" (bytes "param must be array|object")

def checkResponse (res : Response) : Message :=
  match res.error, res.id with
  | some _, _ | none, .string _ | none, .long _ | none, .double _ => .response res
  | none, _ => errorMessage invalidRequest "Invalid Request" (bytes "id must be string|number")

def ofJSON (v : JSON) : Message :=
  match Request.ofJSON v, Response.ofJSON v with
  | .ok req, _ => checkRequest req
  | .error _, .ok res => checkResponse res
  | .error _, .error e => errorMessage invalidRequest "Invalid Request" e

/-- `MessageParser::operator()`. -/
def parseMessage (E : Env) (text : Bytes) : Message :=
  match parse E.toDouble text with
  | .ok v => ofJSON v
  | .error e => errorMessage parseErrorCode "Parse error" (E.formatError text e)

/-! ## Texts of values -/

/-- A text of a value that has at most `n` levels. -/
def Denotes (toDouble : Bytes → Option Double) (n : Nat) (text : Bytes) (v : JSON) : Prop :=
  ∃ ts, Spells ts text ∧ Value toDouble n ts v

section
variable {toDouble : Bytes → Option Double} {text : Bytes} {v : JSON} {n m : Nat}

theorem value_mono (hnm : n ≤ m) {ts : List Token} {v : JSON} (h : Value toDouble n ts v) :
    Value toDouble m ts v := by
  induction n generalizing m ts v with
  | zero => exact h.elim
  | succ n ih =>
    obtain ⟨m, rfl⟩ := Nat.exists_eq_add_of_le' (Nat.le_trans (Nat.le_add_left 1 n) hnm)
    have hle : n ≤ m := Nat.le_of_succ_le_succ hnm
    rcases h with h | ⟨parts, vs, rfl, h, rfl⟩ | ⟨parts, ms, rfl, h, rfl⟩
    · exact .inl h
    · exact .inr (.inl ⟨parts, vs, rfl, h.imp fun _ _ => ih hle, rfl⟩)
    · refine .inr (.inr ⟨parts, ms, rfl, h.imp ?_, rfl⟩)
      rintro ts m ⟨key, ts', hts, hkind, hkey, hvalue⟩
      exact ⟨key, ts', hts, hkind, hkey, ih hle hvalue⟩

theorem Denotes.mono (hnm : n ≤ m) (h : Denotes toDouble n text v) : Denotes toDouble m text v :=
  let ⟨ts, hspells, hvalue⟩ := h
  ⟨ts, hspells, value_mono hnm hvalue⟩

theorem Denotes.parse (h : Denotes toDouble n text v) (hn : n < maxNestingDepth) :
    Json.parse toDouble text = .ok v :=
  let ⟨_, hspells, hvalue⟩ := h.mono (Nat.le_sub_one_of_lt hn)
  parse_complete hspells hvalue

theorem Denotes.of_plain (h : Plain n v) (fromDouble : Double → Bytes) :
    Denotes toDouble n (v.serialize fromDouble 0) v.strip := by
  obtain ⟨ts, hspells, hvalue⟩ :=
    h.derives toDouble fromDouble 0 n v 0
  have hinvalid : ¬v.isInvalid := by
    rw [isInvalid_iff]
    rintro rfl
    cases n <;> exact h.elim
  refine ⟨ts, ?_, hvalue⟩
  unfold JSON.serialize
  rw [if_neg hinvalid]
  exact hspells.append_spaces (spaces_newline 0)

/-! ## Objects -/

theorem textual_of_ascii (h : ∀ c ∈ text, 0x20 ≤ c ∧ c < 128) : Textual text := by
  refine ⟨text, fun c hc => ?_, ?_, fun hmem => absurd (h _ hmem).1 (by decide)⟩
  · have := (h c hc).2
    unfold codePointMax
    omega
  · induction text with
    | nil => rfl
    | cons c text ih =>
      rw [List.forall_mem_cons] at h
      rw [encode_cons, ← ih h.2, codePointToUtf8, if_pos (by omega)]
      rfl

theorem textual_append {s t : Bytes} (hs : Textual s) (ht : Textual t) : Textual (s ++ t) := by
  obtain ⟨cs, hcs, rfl, hmem⟩ := hs
  obtain ⟨ds, hds, rfl, hmem'⟩ := ht
  exact ⟨cs ++ ds, List.forall_mem_append.2 ⟨hcs, hds⟩, (encode_append cs ds).symm,
    fun h => (List.mem_append.1 h).elim hmem hmem'⟩

/-- The members that fields stand for; an invalid value is no field. -/
def fields (fs : List (String × JSON)) : List (Bytes × JSON) :=
  fs.flatMap fun f => if f.2.isInvalid then [] else [(bytes f.1, f.2)]

/-- The text of a field. -/
def FieldOf (toDouble : Bytes → Option Double) (n : Nat) (text : Bytes) (f : String × JSON) :
    Prop :=
  Textual (bytes f.1) ∧ ((text = [] ∧ f.2 = .invalid) ∨
    ∃ raw, text = field f.1 raw ∧ Denotes toDouble n raw f.2)

theorem fields_cons {f : String × JSON} {fs : List (String × JSON)} (h : f.2.isInvalid = false) :
    fields (f :: fs) = (bytes f.1, f.2) :: fields fs := by
  rw [fields, List.flatMap_cons, h]
  rfl

theorem Denotes.isInvalid (h : Denotes toDouble n text v) : v.isInvalid = false := by
  obtain ⟨ts, -, hvalue⟩ := h
  cases n with
  | zero => exact hvalue.elim
  | succ n =>
    rcases hvalue with ⟨tok, -, h⟩ | ⟨_, _, -, -, rfl⟩ | ⟨_, _, -, -, rfl⟩
    · rcases h with ⟨-, rfl⟩ | ⟨-, rfl⟩ | ⟨-, rfl⟩ | ⟨-, h⟩ | ⟨-, _, -, rfl⟩
      · rfl
      · rfl
      · rfl
      · rcases h with ⟨-, _, -, rfl⟩ | ⟨-, _, -, -, rfl⟩ <;> rfl
      · rfl
    · rfl
    · rfl

theorem fields_spec {texts : List Bytes} {fs : List (String × JSON)}
    (h : List.Forall₂ (FieldOf toDouble n) texts fs) :
    (texts.flatten = [] ∧ fields fs = []) ∨
      ∃ body part parts, texts.flatten = body ++ [byte ','] ∧
        Spells (part ++ parts.flatMap (fixedToken .comma :: ·)) body ∧
        List.Forall₂ (Member (Value toDouble n)) (part :: parts) (fields fs) := by
  induction h with
  | nil => exact .inl ⟨rfl, rfl⟩
  | @cons text f texts fs hfield _ ih =>
    obtain ⟨name, v⟩ := f
    obtain ⟨hname, hfield⟩ := hfield
    rw [List.flatten_cons]
    rcases hfield with ⟨rfl, hv⟩ | ⟨raw, rfl, hdenotes⟩
    · dsimp only at hv
      subst hv
      exact ih
    · rw [fields_cons hdenotes.isInvalid]
      obtain ⟨ts, hspells, hvalue⟩ := hdenotes
      obtain ⟨htext, hstring⟩ := quote_spec hname
      have hquote := Spells.token ⟨.string, quote (bytes name)⟩ (.inr (.inr ⟨rfl, htext⟩))
      have hall := (hquote.append (.fixed .colon (by decide))).append hspells
      have hmember : Member (Value toDouble n)
          ([⟨.string, quote (bytes name)⟩] ++ [fixedToken .colon] ++ ts) (bytes name, v) :=
        ⟨_, ts, rfl, rfl, hstring, hvalue⟩
      rcases ih with ⟨htexts, hmembers⟩ | ⟨body, part, parts, htexts, hbody, hmembers⟩
      · rw [htexts, hmembers, List.append_nil]
        refine .inr ⟨_, _, [], rfl, ?_, .cons hmember .nil⟩
        rw [List.flatMap_nil, List.append_nil]
        exact hall
      · have hcomma := (hall.append (.fixed .comma (by decide))).append hbody
        rw [List.append_assoc] at hcomma
        refine .inr ⟨field name raw ++ body, _, part :: parts, ?_, hcomma, .cons hmember hmembers⟩
        rw [htexts, List.append_assoc]

/-- The text of an object. -/
theorem denotes_object {texts : List Bytes} {fs : List (String × JSON)}
    (h : List.Forall₂ (FieldOf toDouble n) texts fs) :
    Denotes toDouble (n + 1) (object texts) (.object (toObject (fields fs))) := by
  have hopen := Spells.fixed .objectOpen (by decide)
  have hclose := Spells.fixed .objectClose (by decide)
  unfold object popSep
  rcases fields_spec h with ⟨htexts, hfields⟩ | ⟨body, part, parts, htexts, hbody, hmembers⟩
  · rw [htexts, hfields, List.append_nil, if_neg (by decide)]
    exact ⟨_, hopen.append hclose, .inr (.inr ⟨[], [], rfl, .nil, rfl⟩)⟩
  · rw [htexts, ← List.append_assoc, if_pos List.getLast?_concat, List.dropLast_concat]
    exact ⟨_, (hopen.append hbody).append hclose,
      .inr (.inr ⟨part :: parts, _, rfl, hmembers, rfl⟩)⟩

/-! ## Fields -/

theorem stringField_spec {name : String} {s : Bytes} (hname : Textual (bytes name))
    (hs : Textual s) : FieldOf toDouble (n + 1) (field name (quote s)) (name, .string s) := by
  obtain ⟨htext, hstring⟩ := quote_spec hs
  exact ⟨hname, .inr ⟨_, rfl, _, .token ⟨.string, quote s⟩ (.inr (.inr ⟨rfl, htext⟩)),
    .inl ⟨_, rfl, .inr (.inr (.inr (.inr ⟨rfl, s, hstring, rfl⟩)))⟩⟩⟩

theorem longField_spec {name : String} {z : Int} (hname : Textual (bytes name))
    (hz : Fits Width.w64.size z) :
    FieldOf toDouble (n + 1) (field name (Json.toString z)) (name, .long z) := by
  obtain ⟨htext, hnumber⟩ := toString_spec hz
  exact ⟨hname, .inr ⟨_, rfl, _,
    .token ⟨.number, Json.toString z⟩ (.inr (.inl ⟨rfl, htext⟩)),
    .inl ⟨_, rfl, .inr (.inr (.inr (.inl ⟨rfl, hnumber⟩)))⟩⟩⟩

theorem isInvalid_strip (v : JSON) : v.strip.isInvalid = v.isInvalid := by
  cases v <;> rfl

theorem jsonField_spec {E : Env} {name : String} (hname : Textual (bytes name))
    (hv : v = .invalid ∨ Plain n v) :
    FieldOf E.toDouble n (jsonField E name v) (name, v.strip) := by
  refine ⟨hname, hv.imp ?_ ?_⟩
  · rintro rfl
    exact ⟨rfl, rfl⟩
  · intro hplain
    have hdenotes := @Denotes.of_plain E.toDouble v n hplain E.fromDouble
    have hinvalid := hdenotes.isInvalid
    rw [isInvalid_strip] at hinvalid
    refine ⟨_, ?_, hdenotes⟩
    unfold jsonField
    rw [hinvalid, if_neg Bool.false_ne_true]

theorem Denotes.ne_nil (h : Denotes toDouble n text v) : text ≠ [] := by
  obtain ⟨ts, hspells, hvalue⟩ := h
  obtain ⟨t, ts', rfl, -⟩ := (value_shaped n ts v hvalue).head
  cases hspells with
  | cons _ ht _ =>
    obtain ⟨ch, s, heq, -⟩ := ht.head
    rw [heq]
    exact List.append_ne_nil_of_right_ne_nil _ (List.cons_ne_nil _ _)

/-- What a serialized value is: nothing if there is no text. -/
def Stands (toDouble : Bytes → Option Double) (n : Nat) (raw : RawJSON) (v : JSON) : Prop :=
  (raw = [] ∧ v = .invalid) ∨ Denotes toDouble n raw v

theorem rawField_spec {name : String} {raw : RawJSON} (hname : Textual (bytes name))
    (h : Stands toDouble n raw v) : FieldOf toDouble n (rawField name raw) (name, v) := by
  refine ⟨hname, h.imp ?_ fun h => ⟨raw, if_neg h.ne_nil, h⟩⟩
  rintro ⟨rfl, rfl⟩
  exact ⟨rfl, rfl⟩

theorem bytes_inj {a b : String} : bytes a = bytes b ↔ a = b := by
  unfold bytes
  rw [List.map_inj_right fun c d h => Char.toNat_inj.1 h, String.toList_inj]

/-- A field is found in the object. -/
theorem optionalField_fields (fs : List (String × JSON)) (hnames : (fs.map Prod.fst).Nodup)
    (name : String) :
    optionalField (toObject (fields fs)) name = (fs.lookup name).getD .invalid := by
  unfold optionalField
  rw [(toObject_spec _).2]
  induction fs with
  | nil => rfl
  | cons f fs ih =>
    obtain ⟨name', v⟩ := f
    obtain ⟨hmem, hnames⟩ := List.nodup_cons.1 hnames
    by_cases hv : v.isInvalid
    · have hfields : fields ((name', v) :: fs) = fields fs := by
        rw [fields, List.flatMap_cons, if_pos hv]
        rfl
      rw [hfields, ih hnames, List.lookup_cons]
      by_cases heq : name = name'
      · have hnone : fs.lookup name = none := by
          refine List.lookup_eq_none_iff.2 fun f hf => bne_iff_ne.2 ?_
          intro hname
          exact hmem (List.mem_map.2 ⟨f, hf, hname.symm.trans heq⟩)
        rw [hnone, heq, beq_self_eq_true, isInvalid_iff.1 hv]
        rfl
      · rw [beq_eq_false_iff_ne.2 heq]
    · rw [fields_cons (Bool.eq_false_of_not_eq_true hv), List.lookup_cons, List.lookup_cons]
      by_cases heq : name = name'
      · rw [heq, beq_self_eq_true, beq_self_eq_true]
      · rw [beq_eq_false_iff_ne.2 heq, beq_eq_false_iff_ne.2 (bytes_inj.not.2 heq)]
        exact ih hnames

theorem anyField_of {ms : List (Bytes × JSON)} {name : String} (h : optionalField ms name = v)
    (hv : v.isInvalid = false) : ms.lookup (bytes name) = some v := by
  unfold optionalField at h
  cases hlookup : ms.lookup (bytes name) with
  | none =>
    rw [hlookup] at h
    subst h
    cases hv
  | some w =>
    rw [hlookup] at h
    exact congrArg some h

theorem stringField_error {ms : List (Bytes × JSON)} {name : String}
    (h : optionalField ms name = .invalid) : ∃ e, stringField ms name = .error e := by
  unfold optionalField at h
  unfold stringField anyField
  cases hlookup : ms.lookup (bytes name) with
  | none => exact ⟨_, rfl⟩
  | some w =>
    rw [hlookup] at h
    obtain rfl : w = .invalid := h
    exact ⟨_, rfl⟩

theorem stringField_of {ms : List (Bytes × JSON)} {name : String} {s : Bytes}
    (h : optionalField ms name = .string s) : stringField ms name = .ok s := by
  unfold stringField anyField
  rw [anyField_of h rfl]
  rfl

end

/-! ## Messages -/

section
variable {E : Env}

/-- An id that a request may have. -/
def IsId (id : JSON) : Prop :=
  id = .invalid ∨ id = .null ∨ (∃ z, id = .long z ∧ Fits Width.w64.size z) ∨
    ∃ s, id = .string s ∧ Textual s

/-- Parameters that a request may have. -/
def IsParams (params : JSON) : Prop :=
  params = .invalid ∨ params = .null ∨ (∃ vs, params = .array vs) ∨ ∃ ms, params = .object ms

theorem IsId.field {id : JSON} {n : Nat} {name : String} (h : IsId id)
    (hname : Textual (bytes name)) :
    FieldOf E.toDouble (n + 1) (jsonField E name id) (name, id) := by
  rcases h with rfl | rfl | ⟨z, rfl, hz⟩ | ⟨s, rfl, hs⟩
  · exact jsonField_spec (v := .invalid) hname (.inl rfl)
  · exact jsonField_spec (v := .null) hname (.inr trivial)
  · exact jsonField_spec (v := .long z) hname (.inr hz)
  · exact jsonField_spec (v := .string s) hname (.inr hs)

/-- The names of all fields. -/
theorem textual_name : ∀ name ∈ ["jsonrpc", "id", "method", "params", "result", "error", "code",
    "message", "data"], Textual (bytes name) := by
  intro name hname
  apply textual_of_ascii
  revert name
  decide

theorem denotes_request {req : RawRequest} {params : JSON} (hjsonrpc : Textual req.jsonrpc)
    (hid : IsId req.id) (hmethod : Textual req.method)
    (hparams : Stands E.toDouble (maxNestingDepth - 2) req.params params) :
    Denotes E.toDouble (maxNestingDepth - 1) (req.text E) (.object (toObject
      (fields [("jsonrpc", .string req.jsonrpc), ("id", req.id), ("method", .string req.method),
        ("params", params)]))) := by
  have hjsonrpcField := @stringField_spec E.toDouble (maxNestingDepth - 3) _ _
    (textual_name "jsonrpc" (by simp)) hjsonrpc
  exact denotes_object (.cons hjsonrpcField
    (.cons (hid.field (textual_name "id" (by simp)))
      (.cons (stringField_spec (textual_name "method" (by simp)) hmethod)
        (.cons (rawField_spec (textual_name "params" (by simp)) hparams) .nil))))

theorem checkRequest_of (req : Request) (hid : IsId req.id) (hparams : IsParams req.params) :
    checkRequest req = .request req := by
  obtain ⟨jsonrpc, id, method, params⟩ := req
  dsimp only at hid hparams
  rcases hid with rfl | rfl | ⟨_, rfl, -⟩ | ⟨_, rfl, -⟩ <;>
    rcases hparams with rfl | rfl | ⟨_, rfl⟩ | ⟨_, rfl⟩ <;> rfl

theorem parseMessage_request (req : RawRequest) {params : JSON}
    (hjsonrpc : Textual req.jsonrpc) (hid : IsId req.id) (hmethod : Textual req.method)
    (hparams : Stands E.toDouble (maxNestingDepth - 2) req.params params)
    (hkind : IsParams params) :
    parseMessage E (req.text E) = .request ⟨req.jsonrpc, req.id, req.method, params⟩ := by
  have hparse := (denotes_request hjsonrpc hid hmethod hparams).parse (by decide)
  have hfind := optionalField_fields [("jsonrpc", .string req.jsonrpc), ("id", req.id),
    ("method", .string req.method), ("params", params)] (by simp)
  unfold parseMessage
  rw [hparse]
  generalize toObject _ = ms at hfind
  have hrequest : Request.ofJSON (.object ms) = .ok ⟨req.jsonrpc, req.id, req.method, params⟩ := by
    refine bind_eq_ok.2 ⟨ms, rfl, bind_eq_ok.2 ⟨_, stringField_of (hfind "jsonrpc"),
      bind_eq_ok.2 ⟨_, stringField_of (hfind "method"), ?_⟩⟩⟩
    rw [hfind "id", hfind "params"]
    rfl
  dsimp only
  unfold ofJSON
  rw [hrequest]
  exact checkRequest_of ⟨req.jsonrpc, req.id, req.method, params⟩ hid hkind

/-- An error whose text can be read. -/
structure Error.Writable (e : Error) : Prop where
  code : Fits Width.w32.size e.code
  message : Textual e.message
  data : e.data = .invalid ∨ Plain (maxNestingDepth - 3) e.data

/-- The error that is read. -/
def Error.strip (e : Error) : Error := ⟨e.code, e.message, e.data.strip⟩

theorem mem_stripElements {v : JSON} {values : List JSON} (h : v ∈ stripElements values) :
    ∃ w ∈ values, w ≠ .invalid ∧ v = w.strip := by
  induction values with
  | nil => cases h
  | cons w values ih =>
    rw [stripElements] at h
    split at h
    · obtain ⟨w', hw', h⟩ := ih h
      exact ⟨w', List.mem_cons_of_mem _ hw', h⟩
    · next hinvalid =>
      rcases List.mem_cons.1 h with rfl | h
      · exact ⟨w, List.mem_cons_self, hinvalid ∘ isInvalid_iff.2, rfl⟩
      · obtain ⟨w', hw', h⟩ := ih h
        exact ⟨w', List.mem_cons_of_mem _ hw', h⟩

theorem mem_stripMembers {m : Bytes × JSON} {ms : List (Bytes × JSON)} (h : m ∈ stripMembers ms) :
    ∃ m' ∈ ms, m'.2 ≠ .invalid ∧ m = stripMember m' := by
  induction ms with
  | nil => cases h
  | cons m' ms ih =>
    rw [stripMembers] at h
    split at h
    · obtain ⟨m'', hm'', h⟩ := ih h
      exact ⟨m'', List.mem_cons_of_mem _ hm'', h⟩
    · next hinvalid =>
      rcases List.mem_cons.1 h with rfl | h
      · exact ⟨m', List.mem_cons_self, hinvalid ∘ isInvalid_iff.2, rfl⟩
      · obtain ⟨m'', hm'', h⟩ := ih h
        exact ⟨m'', List.mem_cons_of_mem _ hm'', h⟩

theorem plain_strip {n : Nat} {v : JSON} (h : Plain n v) : Plain n v.strip := by
  induction n generalizing v with
  | zero => exact h.elim
  | succ n ih =>
    cases v with
    | array values =>
      intro v hv
      obtain ⟨w, hw, hne, rfl⟩ := mem_stripElements hv
      exact .inr (ih ((h w hw).resolve_left hne))
    | object members =>
      obtain ⟨hsorted, hmembers⟩ := h
      have hkeys := (List.pairwise_map.2 hsorted).sublist (stripMembers_keys members)
      refine ⟨List.pairwise_map.1 hkeys, fun m hm => ?_⟩
      obtain ⟨⟨key, value⟩, hm', hne, rfl⟩ := mem_stripMembers hm
      have hmember := (hmembers _ hm').resolve_left hne
      rw [stripMember]
      exact .inr ⟨hmember.1, ih hmember.2⟩
    | _ => exact h

theorem Error.Writable.strip {e : Error} (he : e.Writable) : e.strip.Writable := by
  refine ⟨he.code, he.message, he.data.imp ?_ plain_strip⟩
  intro h
  rw [Error.strip, h]
  rfl

theorem denotes_error {e : Error} (he : e.Writable) :
    Denotes E.toDouble (maxNestingDepth - 2) (e.text E) (.object (toObject
      (fields [("code", .long e.code), ("message", .string e.message),
        ("data", e.data.strip)]))) := by
  have hcode : Fits Width.w64.size e.code := by
    obtain ⟨hlow, hhigh⟩ := he.code
    exact ⟨Int.le_trans (by decide) hlow, Int.lt_of_lt_of_le hhigh (by decide)⟩
  have hcodeField := @longField_spec E.toDouble (maxNestingDepth - 4) _ _
    (textual_name "code" (by simp)) hcode
  exact denotes_object (.cons hcodeField
    (.cons (stringField_spec (textual_name "message" (by simp)) he.message)
      (.cons (jsonField_spec (textual_name "data" (by simp)) he.data) .nil)))

theorem error_ofJSON {e : Error} (he : e.Writable) :
    Error.ofJSON (.object (toObject (fields [("code", .long e.code), ("message", .string e.message),
      ("data", e.data.strip)]))) = .ok e.strip := by
  have hfind := optionalField_fields [("code", .long e.code), ("message", .string e.message),
    ("data", e.data.strip)] (by simp)
  generalize toObject _ = ms at hfind
  have hcode : intField ms "code" = .ok e.code := by
    unfold intField anyField
    rw [anyField_of (hfind "code") rfl]
    have hfits := he.code
    change -((0x100000000 / 2 : Nat) : Int) ≤ _ ∧ _ < ((0x100000000 / 2 : Nat) : Int) at hfits
    have hmod : e.code.bmod 0x100000000 = e.code := Int.bmod_eq_of_le (by omega) (by omega)
    exact congrArg Except.ok hmod
  refine bind_eq_ok.2 ⟨ms, rfl, bind_eq_ok.2 ⟨_, hcode,
    bind_eq_ok.2 ⟨_, stringField_of (hfind "message"), ?_⟩⟩⟩
  rw [hfind "data"]
  rfl

/-- What the result of a response stands for. -/
def ResultStands (toDouble : Bytes → Option Double) (n : Nat) :
    Option (JSON ⊕ RawJSON) → JSON → Prop
  | none, v => v = .invalid
  | some (.inl w), v => (w = .invalid ∨ Plain n w) ∧ v = w.strip
  | some (.inr raw), v => Stands toDouble n raw v

/-- The error that is written, as a value. -/
def errorValue (error : Option Error) : JSON :=
  error.elim .invalid fun e => .object (toObject (fields [("code", .long e.code),
    ("message", .string e.message), ("data", e.data.strip)]))

theorem resultField_spec {result : Option (JSON ⊕ RawJSON)} {v : JSON} {n : Nat}
    (h : ResultStands E.toDouble n result v) :
    FieldOf E.toDouble n (resultField E result) ("result", v) := by
  have hname := textual_name "result" (by simp)
  rcases result with _ | w | raw
  · exact ⟨hname, .inl ⟨rfl, h⟩⟩
  · obtain ⟨hw, rfl⟩ := h
    exact jsonField_spec hname hw
  · exact rawField_spec hname h

theorem denotes_response {res : Response} {v : JSON} (hjsonrpc : Textual res.jsonrpc)
    (hid : IsId res.id) (hresult : ResultStands E.toDouble (maxNestingDepth - 2) res.result v)
    (herror : ∀ e, res.error = some e → e.Writable) :
    Denotes E.toDouble (maxNestingDepth - 1) (res.text E) (.object (toObject
      (fields [("id", res.id), ("jsonrpc", .string res.jsonrpc), ("result", v),
        ("error", errorValue res.error)]))) := by
  have herrorField : FieldOf E.toDouble (maxNestingDepth - 2)
      (res.error.elim [] fun e => field "error" (e.text E)) ("error", errorValue res.error) := by
    have hname := textual_name "error" (by simp)
    cases he : res.error with
    | none => exact ⟨hname, .inl ⟨rfl, rfl⟩⟩
    | some e => exact ⟨hname, .inr ⟨_, rfl, denotes_error (herror e he)⟩⟩
  exact denotes_object (.cons (hid.field (textual_name "id" (by simp)))
    (.cons (stringField_spec (n := maxNestingDepth - 3) (textual_name "jsonrpc" (by simp)) hjsonrpc)
      (.cons (resultField_spec hresult) (.cons herrorField .nil))))

theorem parseMessage_response (res : Response) {v : JSON} (hjsonrpc : Textual res.jsonrpc)
    (hid : IsId res.id) (hne : res.id ≠ .invalid)
    (hresult : ResultStands E.toDouble (maxNestingDepth - 2) res.result v)
    (herror : ∀ e, res.error = some e → e.Writable) (hnull : res.error = none → res.id ≠ .null) :
    parseMessage E (res.text E) =
      .response ⟨res.jsonrpc, res.id, resultOf v, res.error.map Error.strip⟩ := by
  have hparse := (denotes_response hjsonrpc hid hresult herror).parse (by decide)
  have hfind := optionalField_fields [("id", res.id), ("jsonrpc", .string res.jsonrpc),
    ("result", v), ("error", errorValue res.error)] (by simp)
  unfold parseMessage
  rw [hparse]
  generalize toObject _ = ms at hfind
  have hrequest : ∃ e, Request.ofJSON (.object ms) = .error e := by
    obtain ⟨e, he⟩ := stringField_error (hfind "method")
    exact ⟨e, bind_eq_error.2 (.inr ⟨ms, rfl, bind_eq_error.2
      (.inr ⟨_, stringField_of (hfind "jsonrpc"), bind_eq_error.2 (.inl he)⟩)⟩)⟩
  have hresponse : Response.ofJSON (.object ms) =
      .ok ⟨res.jsonrpc, res.id, resultOf v, res.error.map Error.strip⟩ := by
    have hinvalid : res.id.isInvalid = false :=
      Bool.eq_false_of_not_eq_true fun h => hne (isInvalid_iff.1 h)
    have hidField : anyField ms "id" = .ok res.id := by
      unfold anyField
      rw [anyField_of (hfind "id") hinvalid]
      rfl
    have herror' : errorField (optionalField ms "error") = .ok (res.error.map Error.strip) := by
      rw [hfind "error"]
      cases he : res.error with
      | none => rfl
      | some e => exact congrArg (Except.map some) (error_ofJSON (herror e he))
    refine bind_eq_ok.2 ⟨ms, rfl, bind_eq_ok.2 ⟨_, hidField, bind_eq_ok.2
      ⟨_, stringField_of (hfind "jsonrpc"), bind_eq_ok.2 ⟨_, herror', ?_⟩⟩⟩⟩
    rw [hfind "result"]
    rfl
  obtain ⟨e, he⟩ := hrequest
  dsimp only
  unfold ofJSON
  rw [he, hresponse]
  obtain ⟨jsonrpc, id, result, error⟩ := res
  dsimp only at hid hne hnull ⊢
  cases error with
  | some e => rfl
  | none =>
    rcases hid with rfl | rfl | ⟨_, rfl, -⟩ | ⟨_, rfl, -⟩
    · exact absurd rfl hne
    · exact absurd rfl (hnull rfl)
    · rfl
    · rfl

/-- The text of a message, and what it is read as. -/
inductive Sends (E : Env) : Bytes → Message → Prop where
  | request {req : RawRequest} {params : JSON} (hjsonrpc : Textual req.jsonrpc)
    (hid : IsId req.id) (hmethod : Textual req.method)
    (hparams : Stands E.toDouble (maxNestingDepth - 2) req.params params)
    (hkind : IsParams params) :
    Sends E (req.text E) (.request ⟨req.jsonrpc, req.id, req.method, params⟩)
  | response {res : Response} {v : JSON} (hjsonrpc : Textual res.jsonrpc) (hid : IsId res.id)
    (hne : res.id ≠ .invalid) (hresult : ResultStands E.toDouble (maxNestingDepth - 2) res.result v)
    (herror : ∀ e, res.error = some e → e.Writable) (hnull : res.error = none → res.id ≠ .null) :
    Sends E (res.text E) (.response ⟨res.jsonrpc, res.id, resultOf v, res.error.map Error.strip⟩)

/-- A message is parsed back from its text. -/
theorem parseMessage_text {text : Bytes} {msg : Message} (h : Sends E text msg) :
    parseMessage E text = msg := by
  cases h with
  | request hjsonrpc hid hmethod hparams hkind =>
    exact parseMessage_request _ hjsonrpc hid hmethod hparams hkind
  | response hjsonrpc hid hne hresult herror hnull =>
    exact parseMessage_response _ hjsonrpc hid hne hresult herror hnull

/-- Numbers with fractions are not read, and written as nothing. -/
def sampleEnv : Env := ⟨fun _ => none, fun _ => [], fun _ e => e.message⟩

/-- A call whose parameters are an array. -/
def sampleRequest : RawRequest := ⟨version, .string (bytes "id-1-A"), bytes "/put", bytes "[true]"⟩

theorem parseMessage_text_sample :
    parseMessage sampleEnv (sampleRequest.text sampleEnv) =
      .request ⟨version, .string (bytes "id-1-A"), bytes "/put", .array [.bool true]⟩ := by
  have hid := @textual_of_ascii (bytes "id-1-A") (by decide)
  have hparams := @Denotes.of_plain sampleEnv.toDouble (.array [.bool true])
    (maxNestingDepth - 2) (List.forall_mem_singleton.2 (.inr trivial)) sampleEnv.fromDouble
  exact parseMessage_text (.request (textual_of_ascii (by decide))
    (.inr (.inr (.inr ⟨_, rfl, hid⟩))) (textual_of_ascii (by decide)) (.inr hparams)
    (.inr (.inr (.inl ⟨_, rfl⟩))))

end

end Arsh.Rpc

import Arsh.Lib.Assoc
import Arsh.Rpc.Message
import Mathlib.Data.List.Perm.Basic

/-!
# Calls between two handlers

`Handler` and `CallbackMap` of `jsonrpc.{h,cpp}`: two handlers that call each other's methods, in
any order, over a transport that keeps the order of messages. A call is given an id, and its
callback waits in a map for a response with the id.

`handlers_direct`: it is as if a message carried its callback with it, and there were no ids and no
texts. A response with an error is not given to the callback that waits for it: `dispatch` takes it
for an invalid message and sends it back, and so does the other handler. So a call that is answered
with an error never returns, and there is always a message for it on its way
(`returned_unless_under_way`).

What a method or a callback calls itself counts as called before the message, or after it. The
conversions of parameters and results, which `bind` and `call` put around methods and callbacks,
belong to these.
-/

namespace Arsh.Rpc

open Json Assoc NumUtil
open Regex.Parser (byte)

/-! ## Ids and callbacks -/

def upperDigit (ch : Nat) : Nat := if byte 'a' ≤ ch then ch - 32 else ch

/-- `IDGenerator`, with two random numbers. -/
def idText (v : Nat × Nat) : Bytes :=
  bytes "id-" ++ (formatLoop 16 64 v.1).reverse ++ bytes "-" ++
    (formatLoop 16 64 v.2).reverse.map upperDigit

section
variable {κ : Type}

/-- `CallbackMap::add`, until the random numbers are used up: the id of a call, and the map. -/
def add (callback : κ) : List (Nat × Nat) → List (Bytes × κ) → Option (Bytes × List (Bytes × κ))
  | [], _ => none
  | v :: vs, map =>
    if (emplace map (idText v) callback).1 then
      some (idText v, (emplace map (idText v) callback).2)
    else add callback vs map

def take (id : Bytes) (map : List (Bytes × κ)) : Option κ × List (Bytes × κ) :=
  (mapFind map id, map.filter fun e => e.1 ≠ id)

end

/-! ## Handlers -/

/-- What a call gives: a result, or an error. -/
abbrev ReplyImpl := Except Error RawJSON

/-- The methods that are bound, with what they do to the state they share. -/
structure Methods (σ : Type) where
  callMap : List (Bytes × (JSON → σ → ReplyImpl × σ))
  notificationMap : List (Bytes × (JSON → σ → σ))

structure Handler (σ κ : Type) where
  state : σ
  callbackMap : List (Bytes × κ)

section
variable {σ κ : Type} (E : Env) (M : Methods σ)

def onCallImpl (name : Bytes) (params : JSON) (state : σ) : ReplyImpl × σ :=
  (mapFind M.callMap name).elim
    (.error ⟨methodNotFound, bytes "undefined method: " ++ name, .invalid⟩, state)
    fun method => method params state

def onNotify (name : Bytes) (params : JSON) (state : σ) : σ :=
  (mapFind M.notificationMap name).elim state fun method => method params state

def reply (id : JSON) : ReplyImpl → Bytes
  | .ok result => Response.text E ⟨version, id, some (.inr result), none⟩
  | .error e => Response.text E (.ofError id e)

def RawJSON.toJSON (raw : RawJSON) : JSON :=
  match parse E.toDouble raw with
  | .ok v => v
  | .error _ => .invalid

def Response.takeResultAsJSON (res : Response) : JSON :=
  res.result.elim .invalid (Sum.elim (fun v => v) (RawJSON.toJSON E))

/-- What a message leads to: the message that is sent, and the callback that is run with a
response. -/
structure Outcome (σ κ : Type) where
  handler : Handler σ κ
  sent : Option Bytes
  called : Option (κ × Response)

def onResponse (h : Handler σ κ) (res : Response) : Outcome σ κ :=
  match res.id with
  | .string id =>
    (take id h.callbackMap).1.elim ⟨h, none, none⟩ fun callback =>
      ⟨{ h with callbackMap := (take id h.callbackMap).2 }, none, some (callback, res)⟩
  | _ => ⟨h, none, none⟩

/-- `Handler::dispatch`, of a message that has been received. -/
def dispatch (h : Handler σ κ) (data : Bytes) : Outcome σ κ :=
  match parseMessage E data with
  | .request req =>
    if req.isCall then
      let r := onCallImpl M req.method req.params h.state
      ⟨{ h with state := r.2 }, some (reply E req.id r.1), none⟩
    else ⟨{ h with state := onNotify M req.method req.params h.state }, none, none⟩
  | .response res =>
    res.error.elim (onResponse h res) fun e => ⟨h, some (Response.text E (.ofError .null e)), none⟩

end

/-! ## Two parties -/

/-- What a party keeps, and the messages that are on their way to it. -/
structure Party (η μ : Type) where
  state : η
  inbox : List μ

section
variable {η μ : Type}

/-- A party changes, and sends messages to the other one. -/
def put (s : Bool → Party η μ) (a : Bool) (p : Party η μ) (sent : List μ) : Bool → Party η μ :=
  fun b => if b = a then p else { s b with inbox := (s b).inbox ++ sent }

@[simp]
theorem put_self (s : Bool → Party η μ) (a : Bool) (p : Party η μ) (sent : List μ) :
    put s a p sent a = p := if_pos rfl

@[simp]
theorem put_not (s : Bool → Party η μ) (a : Bool) (p : Party η μ) (sent : List μ) :
    put s a p sent (!a) = ⟨(s !a).state, (s !a).inbox ++ sent⟩ :=
  if_neg (Bool.not_ne_self a)

end

/-- What a party does next. -/
inductive Act (κ : Type) where
  | call (method : Bytes) (params : RawJSON) (callback : κ)
  | notify (method : Bytes) (params : RawJSON)
  | dispatch

/-- What a party does, and the callback that is run with a result by that. -/
structure Turn (κ : Type) where
  party : Bool
  act : Act κ
  returned : Option (κ × JSON)

section
variable {σ κ : Type} (E : Env) (M : Bool → Methods σ)

/-- The handlers of `jsonrpc`. -/
inductive Step : (Bool → Party (Handler σ κ) Bytes) → Turn κ →
    (Bool → Party (Handler σ κ) Bytes) → Prop where
  | call {s : Bool → Party (Handler σ κ) Bytes} {a : Bool} {method : Bytes} {params : RawJSON}
    {callback : κ} {numbers : List (Nat × Nat)} {id : Bytes} {map : List (Bytes × κ)}
    (hid : add callback numbers (s a).state.callbackMap = some (id, map)) :
    Step s ⟨a, .call method params callback, none⟩
      (put s a ⟨⟨(s a).state.state, map⟩, (s a).inbox⟩
        [RequestBase.text E ⟨version, .string id, method, params⟩])
  | notify {s : Bool → Party (Handler σ κ) Bytes} {a : Bool} {method : Bytes} {params : RawJSON} :
    Step s ⟨a, .notify method params, none⟩
      (put s a (s a) [RequestBase.text E ⟨version, .invalid, method, params⟩])
  | dispatch {s : Bool → Party (Handler σ κ) Bytes} {a : Bool} {data : Bytes} {inbox : List Bytes}
    (hinbox : (s a).inbox = data :: inbox) :
    Step s ⟨a, .dispatch, (dispatch E (M a) (s a).state data).called.map
        (Prod.map id (Response.takeResultAsJSON E))⟩
      (put s a ⟨(dispatch E (M a) (s a).state data).handler, inbox⟩
        (dispatch E (M a) (s a).state data).sent.toList)

/-- A message that carries its callback with it. -/
inductive Mail (κ : Type) where
  | call (method : Bytes) (params : JSON) (callback : κ)
  | notify (method : Bytes) (params : JSON)
  | result (v : JSON) (callback : κ)
  | failure

/-- What becomes of a message: the state, the answer, and the callback that is run. -/
def serve (M : Methods σ) (state : σ) : Mail κ → σ × List (Mail κ) × Option (κ × JSON)
  | .call method params callback =>
    ((onCallImpl M method params state).2,
      match (onCallImpl M method params state).1 with
      | .ok result => [.result (RawJSON.toJSON E result) callback]
      | .error _ => [.failure],
      none)
  | .notify method params => (onNotify M method params state, [], none)
  | .result v callback => (state, [], some (callback, v))
  | .failure => (state, [.failure], none)

/-- What the handlers are for. -/
inductive DirectStep : (Bool → Party σ (Mail κ)) → Turn κ → (Bool → Party σ (Mail κ)) → Prop where
  | call {t : Bool → Party σ (Mail κ)} {a : Bool} {method : Bytes} {params : RawJSON}
    {callback : κ} :
    DirectStep t ⟨a, .call method params callback, none⟩
      (put t a (t a) [.call method (RawJSON.toJSON E params) callback])
  | notify {t : Bool → Party σ (Mail κ)} {a : Bool} {method : Bytes} {params : RawJSON} :
    DirectStep t ⟨a, .notify method params, none⟩
      (put t a (t a) [.notify method (RawJSON.toJSON E params)])
  | dispatch {t : Bool → Party σ (Mail κ)} {a : Bool} {mail : Mail κ} {inbox : List (Mail κ)}
    (hinbox : (t a).inbox = mail :: inbox) :
    DirectStep t ⟨a, .dispatch, (serve E (M a) (t a).state mail).2.2⟩
      (put t a ⟨(serve E (M a) (t a).state mail).1, inbox⟩
        (serve E (M a) (t a).state mail).2.1)

end

/-- Steps, one after the other. -/
inductive Run {S X : Type} (Step : S → X → S → Prop) : S → List X → S → Prop where
  | nil {s : S} : Run Step s [] s
  | cons {s s' s'' : S} {x : X} {xs : List X} (h : Step s x s') (hs : Run Step s' xs s'') :
    Run Step s (x :: xs) s''

theorem Run.simulates {S T X : Type} {step : S → X → S → Prop} {step' : T → X → T → Prop}
    {R : S → T → Prop} {P : X → Prop} {s s' : S} {t : T} {xs : List X}
    (hstep : ∀ s x s' t, step s x s' → P x → R s t → ∃ t', step' t x t' ∧ R s' t')
    (h : Run step s xs s') (hxs : ∀ x ∈ xs, P x) (hR : R s t) :
    ∃ t', Run step' t xs t' ∧ R s' t' := by
  induction h generalizing t with
  | nil => exact ⟨t, .nil, hR⟩
  | cons h _ ih =>
    rw [List.forall_mem_cons] at hxs
    obtain ⟨t', ht', hR'⟩ := hstep _ _ _ t h hxs.1 hR
    obtain ⟨t'', ht'', hR''⟩ := ih hxs.2 hR'
    exact ⟨t'', .cons ht' ht'', hR''⟩

/-! ## The callbacks of messages -/

/-- The same message with another callback. -/
def Mail.map {κ κ' : Type} (f : κ → κ') : Mail κ → Mail κ'
  | .call method params callback => .call method params (f callback)
  | .notify method params => .notify method params
  | .result v callback => .result v (f callback)
  | .failure => .failure

section
variable {κ : Type}

def Mail.call? : Mail κ → Option κ
  | .call _ _ callback => some callback
  | _ => none

def Mail.result? : Mail κ → Option κ
  | .result _ callback => some callback
  | _ => none

def Mail.isFailure : Mail κ → Bool
  | .failure => true
  | _ => false

/-- The callbacks of the calls, and of the results, that are under way, and how many errors are. -/
def calls (inbox : List (Mail κ)) : List κ := inbox.filterMap Mail.call?
def results (inbox : List (Mail κ)) : List κ := inbox.filterMap Mail.result?
def failures (inbox : List (Mail κ)) : Nat := inbox.countP Mail.isFailure

end

section
variable {σ κ : Type} {E : Env} {M : Bool → Methods σ}

/-- The message of a text; its callback has the id of the text. -/
def Says (E : Env) (text : Bytes) : Mail (Bytes × κ) → Prop
  | .call method params c => Textual c.1 ∧ Textual method ∧
    parseMessage E text = .request ⟨version, .string c.1, method, params⟩
  | .notify method params => parseMessage E text = .request ⟨version, .invalid, method, params⟩
  | .result v c => parseMessage E text = .response ⟨version, .string c.1, resultOf v, none⟩
  | .failure =>
    ∃ id e, parseMessage E text = .response ⟨version, id, none, some e⟩ ∧ e.Writable

/-- A callback waits in the map while its call or its result is under way, and for ever if the call
has failed. -/
structure Tracks (E : Env) (s : Bool → Party (Handler σ κ) Bytes)
    (w : Bool → Party σ (Mail (Bytes × κ))) (failed : Bool → List (Bytes × κ)) : Prop where
  state (a : Bool) : (s a).state.state = (w a).state
  inbox (a : Bool) : List.Forall₂ (Says E) (s a).inbox (w a).inbox
  waiting (a : Bool) : (s a).state.callbackMap.Perm
    (calls (w (!a)).inbox ++ results (w a).inbox ++ failed a)
  keys (a : Bool) : ((s a).state.callbackMap.map Prod.fst).Nodup
  failures : (failed true).length + (failed false).length =
    failures (w true).inbox + failures (w false).inbox

/-- Messages that are written can be read. -/
def Act.Writable (E : Env) : Act κ → Prop
  | .call method params _ => Textual method ∧
    ∃ v, Stands E.toDouble (maxNestingDepth - 2) params v ∧ IsParams v
  | .notify method params => Textual method ∧
    ∃ v, Stands E.toDouble (maxNestingDepth - 2) params v ∧ IsParams v
  | .dispatch => True

def ReplyWritable (E : Env) : ReplyImpl → Prop
  | .ok result => ∃ v, Stands E.toDouble (maxNestingDepth - 2) result v
  | .error e => e.Writable

/-- What a method gives can be read. -/
def Methods.Writable (E : Env) (M : Methods σ) : Prop :=
  ∀ m ∈ M.callMap, ∀ params state, ReplyWritable E (m.2 params state).1

theorem add_spec {callback : κ} {numbers : List (Nat × Nat)} {map map' : List (Bytes × κ)}
    {id : Bytes} (h : add callback numbers map = some (id, map')) :
    (∃ v, id = idText v) ∧ mapFind map id = none ∧ map' = map ++ [(id, callback)] := by
  induction numbers with
  | nil => cases h
  | cons v numbers ih =>
    rw [add] at h
    split at h
    · next hnew =>
      cases h
      unfold emplace at hnew ⊢
      split at hnew
      · cases hnew
      · next hnone =>
        rw [if_neg hnone]
        exact ⟨⟨v, rfl⟩, Option.not_isSome_iff_eq_none.1 hnone, rfl⟩
    · exact ih h

theorem formatLoop_digit {fuel n : Nat} :
    ∀ ch ∈ formatLoop 16 fuel n, ∃ d < 16, ch = digitChar d := by
  induction fuel generalizing n with
  | zero => exact List.forall_mem_nil _
  | succ fuel ih =>
    rw [formatLoop, List.forall_mem_cons]
    refine ⟨⟨n % 16, Nat.mod_lt _ (by decide), rfl⟩, ?_⟩
    split
    · exact List.forall_mem_nil _
    · exact ih

theorem textual_version : Textual version := textual_of_ascii (by decide)

theorem textual_idText (v : Nat × Nat) : Textual (idText v) := by
  have hdigit : ∀ d < 16, (0x20 ≤ digitChar d ∧ digitChar d < 128) ∧
      0x20 ≤ upperDigit (digitChar d) ∧ upperDigit (digitChar d) < 128 := by decide
  apply textual_of_ascii
  intro ch hch
  unfold idText at hch
  simp only [List.mem_append, List.mem_reverse, List.mem_map] at hch
  rcases hch with ((hch | hch) | hch) | ⟨ch, hch, rfl⟩
  · revert ch
    decide
  · obtain ⟨d, hd, rfl⟩ := formatLoop_digit ch hch
    exact (hdigit d hd).1
  · revert ch
    decide
  · obtain ⟨d, hd, rfl⟩ := formatLoop_digit ch hch
    exact (hdigit d hd).2

theorem toJSON_of_stands {raw : RawJSON} {v : JSON} {n : Nat} (h : Stands E.toDouble n raw v)
    (hn : n < maxNestingDepth) : RawJSON.toJSON E raw = v := by
  unfold RawJSON.toJSON
  rcases h with ⟨rfl, rfl⟩ | h
  · rfl
  · rw [h.parse hn]

/-! ## What a step keeps -/

/-- The same party in the direct system. -/
def untag (p : Party σ (Mail (Bytes × κ))) : Party σ (Mail κ) :=
  ⟨p.state, p.inbox.map (Mail.map Prod.snd)⟩

theorem untag_put (w : Bool → Party σ (Mail (Bytes × κ))) (a : Bool)
    (p : Party σ (Mail (Bytes × κ))) (sent : List (Mail (Bytes × κ))) :
    (fun b => untag (put w a p sent b)) =
      put (fun b => untag (w b)) a (untag p) (sent.map (Mail.map Prod.snd)) := by
  funext b
  unfold put
  split
  · rfl
  · simp [untag]

theorem serve_map {κ' : Type} (f : κ → κ') (M : Methods σ) (state : σ) (mail : Mail κ) :
    serve E M state (mail.map f) = ((serve E M state mail).1,
      (serve E M state mail).2.1.map (Mail.map f),
      (serve E M state mail).2.2.map (Prod.map f id)) := by
  cases mail with
  | call method params callback =>
    unfold serve Mail.map
    dsimp only
    cases (onCallImpl M method params state).1 <;> rfl
  | notify method params => rfl
  | result v callback => rfl
  | failure => rfl

section
variable (mail : Mail κ) (inbox inbox' : List (Mail κ))

@[simp] theorem calls_nil : calls ([] : List (Mail κ)) = [] := rfl
@[simp] theorem results_nil : results ([] : List (Mail κ)) = [] := rfl
@[simp] theorem failures_nil : failures ([] : List (Mail κ)) = 0 := rfl

@[simp]
theorem calls_cons : calls (mail :: inbox) = mail.call?.toList ++ calls inbox := by
  cases mail <;> rfl

@[simp]
theorem results_cons : results (mail :: inbox) = mail.result?.toList ++ results inbox := by
  cases mail <;> rfl

@[simp]
theorem failures_cons : failures (mail :: inbox) = failures inbox + mail.isFailure.toNat := by
  unfold failures
  rw [List.countP_cons]
  cases mail <;> rfl

@[simp]
theorem calls_append : calls (inbox ++ inbox') = calls inbox ++ calls inbox' :=
  List.filterMap_append

@[simp]
theorem results_append : results (inbox ++ inbox') = results inbox ++ results inbox' :=
  List.filterMap_append

@[simp]
theorem failures_append : failures (inbox ++ inbox') = failures inbox + failures inbox' :=
  List.countP_append

end

theorem Tracks.failures_eq {s : Bool → Party (Handler σ κ) Bytes}
    {w : Bool → Party σ (Mail (Bytes × κ))} {failed : Bool → List (Bytes × κ)}
    (h : Tracks E s w failed) (a : Bool) :
    (failed a).length + (failed (!a)).length =
      Rpc.failures (w a).inbox + Rpc.failures (w (!a)).inbox := by
  cases a with
  | true => exact h.failures
  | false =>
    rw [Nat.add_comm, Nat.add_comm (Rpc.failures _)]
    exact h.failures

/-- What has to be shown of a party that changes and sends messages. -/
theorem Tracks.put {s : Bool → Party (Handler σ κ) Bytes}
    {w : Bool → Party σ (Mail (Bytes × κ))} {failed failed' : Bool → List (Bytes × κ)}
    (h : Tracks E s w failed) {a : Bool} {p : Party (Handler σ κ) Bytes}
    {q : Party σ (Mail (Bytes × κ))} {texts : List Bytes} {mails : List (Mail (Bytes × κ))}
    (hstate : p.state.state = q.state) (hinbox : List.Forall₂ (Says E) p.inbox q.inbox)
    (hsent : List.Forall₂ (Says E) texts mails)
    (hself : p.state.callbackMap.Perm
      (calls ((w (!a)).inbox ++ mails) ++ results q.inbox ++ failed' a))
    (hother : (s (!a)).state.callbackMap.Perm
      (calls q.inbox ++ results ((w (!a)).inbox ++ mails) ++ failed' (!a)))
    (hkeys : (p.state.callbackMap.map Prod.fst).Nodup)
    (hfailures : (failed' a).length + (failed' (!a)).length =
      Rpc.failures q.inbox + Rpc.failures ((w (!a)).inbox ++ mails)) :
    Tracks E (Rpc.put s a p texts) (Rpc.put w a q mails) failed' := by
  have hcases (b : Bool) : b = a ∨ b = !a := Bool.eq_or_eq_not b a
  refine ⟨fun b => ?_, fun b => ?_, fun b => ?_, fun b => ?_, ?_⟩
  · rcases hcases b with rfl | rfl
    · rw [put_self, put_self, hstate]
    · rw [put_not, put_not]
      exact h.state _
  · rcases hcases b with rfl | rfl
    · rw [put_self, put_self]
      exact hinbox
    · rw [put_not, put_not]
      exact List.rel_append (h.inbox _) hsent
  · rcases hcases b with rfl | rfl
    · rw [put_self, put_self, put_not]
      exact hself
    · rw [put_not, put_not, Bool.not_not, put_self]
      exact hother
  · rcases hcases b with rfl | rfl
    · rw [put_self]
      exact hkeys
    · rw [put_not]
      exact h.keys _
  · cases a with
    | true =>
      have hput := put_not w true q mails
      rw [Bool.not_true] at hput
      rw [put_self, hput]
      exact hfailures
    | false =>
      have hput := put_not w false q mails
      rw [Bool.not_false] at hput
      rw [put_self, hput, Nat.add_comm, Nat.add_comm (Rpc.failures _)]
      exact hfailures

section
variable {s : Bool → Party (Handler σ κ) Bytes} {w : Bool → Party σ (Mail (Bytes × κ))}
  {failed : Bool → List (Bytes × κ)} {a : Bool} {method : Bytes} {params : RawJSON} {v : JSON}

theorem keys_add {map : List (Bytes × κ)} {id : Bytes} {callback : κ}
    (hkeys : (map.map Prod.fst).Nodup) (hnone : mapFind map id = none) :
    ((map ++ [(id, callback)]).map Prod.fst).Nodup := by
  rw [List.map_append, List.nodup_append]
  refine ⟨hkeys, List.pairwise_singleton _ _, ?_⟩
  rintro key hkey _ hid rfl
  obtain rfl := List.mem_singleton.1 hid
  obtain ⟨e, he, rfl⟩ := List.mem_map.1 hkey
  rw [mapFind_of_mem (v := e.2) hkeys he] at hnone
  cases hnone

/-- Taking the callback of an id leaves the other ones. -/
theorem take_spec {map rest : List (Bytes × κ)} {c : Bytes × κ}
    (hkeys : (map.map Prod.fst).Nodup) (hmap : map.Perm (c :: rest)) :
    (take c.1 map).1 = some c.2 ∧ (take c.1 map).2.Perm rest ∧
      ((take c.1 map).2.map Prod.fst).Nodup := by
  have hrest := (hmap.map Prod.fst).nodup_iff.1 hkeys
  rw [List.map_cons, List.nodup_cons] at hrest
  refine ⟨mapFind_of_mem hkeys (hmap.mem_iff.2 List.mem_cons_self), ?_,
    hkeys.sublist (List.filter_sublist.map _)⟩
  have hfilter : rest.filter (fun e => e.1 ≠ c.1) = rest := by
    rw [List.filter_eq_self]
    intro e he
    rw [decide_eq_true_eq]
    rintro heq
    exact hrest.1 (heq ▸ List.mem_map_of_mem he)
  have hperm := hmap.filter fun e => e.1 ≠ c.1
  rw [List.filter_cons, if_neg (by simp), hfilter] at hperm
  exact hperm

theorem Tracks.call (h : Tracks E s w failed) {callback : κ} {numbers : List (Nat × Nat)}
    {id : Bytes} {map : List (Bytes × κ)}
    (hid : add callback numbers (s a).state.callbackMap = some (id, map)) (hmethod : Textual method)
    (hparams : Stands E.toDouble (maxNestingDepth - 2) params v) (hkind : IsParams v) :
    Tracks E
      (Rpc.put s a ⟨⟨(s a).state.state, map⟩, (s a).inbox⟩
        [RequestBase.text E ⟨version, .string id, method, params⟩])
      (Rpc.put w a (w a) [.call method v (id, callback)]) failed := by
  obtain ⟨⟨numbers, rfl⟩, hnone, rfl⟩ := add_spec hid
  have htextual := textual_idText numbers
  have hparse := parseMessage_request (E := E)
    ⟨version, .string (idText numbers), method, params⟩
    textual_version (.inr (.inr (.inr ⟨_, rfl, htextual⟩))) hmethod hparams hkind
  have hother := h.waiting (!a)
  rw [Bool.not_not] at hother
  refine h.put (h.state a) (h.inbox a) (.cons ⟨htextual, hmethod, hparse⟩ .nil) ?_ ?_
    (keys_add (h.keys a) hnone) ?_
  · have hwaiting := h.waiting a
    classical
    rw [List.perm_iff_count] at hwaiting ⊢
    intro c
    have := hwaiting c
    simp only [calls_append, calls_cons, calls_nil, Mail.call?, Option.toList_some,
      List.append_nil, List.count_append] at this ⊢
    omega
  · simpa [Mail.result?] using hother
  · simp [Mail.isFailure, h.failures_eq a]

theorem Tracks.notify (h : Tracks E s w failed) (hmethod : Textual method)
    (hparams : Stands E.toDouble (maxNestingDepth - 2) params v) (hkind : IsParams v) :
    Tracks E
      (Rpc.put s a (s a) [RequestBase.text E ⟨version, .invalid, method, params⟩])
      (Rpc.put w a (w a) [.notify method v]) failed := by
  have hparse := parseMessage_request (E := E) ⟨version, .invalid, method, params⟩
    textual_version (.inl rfl) hmethod hparams hkind
  have hother := h.waiting (!a)
  rw [Bool.not_not] at hother
  refine h.put (h.state a) (h.inbox a) (.cons hparse .nil) ?_ ?_ (h.keys a) ?_
  · simpa [Mail.call?] using h.waiting a
  · simpa [Mail.result?] using hother
  · simp [Mail.isFailure, h.failures_eq a]

theorem onCallImpl_writable {M : Methods σ} (hM : M.Writable E) (hmethod : Textual method)
    (params : JSON) (state : σ) : ReplyWritable E (onCallImpl M method params state).1 := by
  unfold onCallImpl
  cases hfind : mapFind M.callMap method with
  | none =>
    have hcode : Fits Width.w32.size methodNotFound := by decide
    have htext := @textual_of_ascii (bytes "undefined method: ") (by decide)
    exact ⟨hcode, textual_append htext hmethod, .inl rfl⟩
  | some f => exact hM _ (mapFind_mem hfind) params state

theorem says_result {c : Bytes × κ} {raw : RawJSON} (hid : Textual c.1)
    (hraw : ReplyWritable E (.ok raw)) :
    Says E (reply E (.string c.1) (.ok raw)) (.result (RawJSON.toJSON E raw) c) := by
  obtain ⟨v, hv⟩ := hraw
  have hparse := parseMessage_response (E := E)
    ⟨version, .string c.1, some (.inr raw), none⟩ textual_version
    (.inr (.inr (.inr ⟨_, rfl, hid⟩))) JSON.noConfusion hv (fun _ he => by cases he)
    fun _ => JSON.noConfusion
  rw [toJSON_of_stands hv (by decide)]
  exact hparse

theorem says_failure {id : JSON} {e : Error} (hid : IsId id) (hne : id ≠ .invalid)
    (he : e.Writable) :
    Says E (Response.text E (.ofError id e)) (.failure : Mail (Bytes × κ)) := by
  have hparse := parseMessage_response (E := E) (.ofError id e) (v := .invalid)
    textual_version hid hne rfl (fun _ h => by cases h; exact he) fun h => by cases h
  exact ⟨id, e.strip, hparse, he.strip⟩

/-- What becomes of a message is what the direct system makes of it. -/
theorem Tracks.dispatch (h : Tracks E s w failed) {data : Bytes} {inbox : List Bytes}
    {mail : Mail (Bytes × κ)} {mails : List (Mail (Bytes × κ))}
    (hinbox : (s a).inbox = data :: inbox) (hmails : (w a).inbox = mail :: mails)
    (hM : (M a).Writable E) :
    ∃ failed', Tracks E
      (Rpc.put s a ⟨(Rpc.dispatch E (M a) (s a).state data).handler, inbox⟩
        (Rpc.dispatch E (M a) (s a).state data).sent.toList)
      (Rpc.put w a ⟨(serve E (M a) (w a).state mail).1, mails⟩
        (serve E (M a) (w a).state mail).2.1) failed' ∧
      (Rpc.dispatch E (M a) (s a).state data).called.map
          (Prod.map id (Response.takeResultAsJSON E)) =
        (serve E (M a) (w a).state mail).2.2.map (Prod.map Prod.snd id) := by
  have hforall := h.inbox a
  rw [hinbox, hmails] at hforall
  have hself := h.waiting a
  have hother := h.waiting (!a)
  have hfailures := h.failures_eq a
  rw [Bool.not_not] at hother
  rw [hmails] at hself hother hfailures
  cases hforall with
  | cons hmail hrest =>
  cases mail with
  | call method params c =>
    obtain ⟨hid, hmethod, hparse⟩ := hmail
    have hwritable := onCallImpl_writable hM hmethod params (s a).state.state
    have hdispatch : Rpc.dispatch E (M a) (s a).state data =
        ⟨{ (s a).state with state := (onCallImpl (M a) method params (s a).state.state).2 },
          some (reply E (.string c.1) (onCallImpl (M a) method params (s a).state.state).1),
          none⟩ := by
      unfold Rpc.dispatch
      rw [hparse]
      rfl
    rw [hdispatch, ← h.state a]
    unfold serve
    dsimp only
    cases hreply : (onCallImpl (M a) method params (s a).state.state).1 with
    | ok raw =>
      rw [hreply] at hwritable
      refine ⟨failed, h.put rfl hrest (.cons (says_result hid hwritable) .nil) ?_ ?_ (h.keys a) ?_,
        rfl⟩
      · simpa [Mail.call?, Mail.result?] using hself
      · classical
        rw [List.perm_iff_count] at hother ⊢
        intro c'
        have := hother c'
        simp only [calls_cons, results_append, results_cons, results_nil, Mail.call?, Mail.result?,
          Option.toList_some, List.append_nil, List.count_append] at this ⊢
        omega
      · simpa [Mail.isFailure] using hfailures
    | error e =>
      rw [hreply] at hwritable
      have hself' : Function.update failed (!a) (c :: failed (!a)) a = failed a :=
        Function.update_of_ne (Bool.self_ne_not a) _ _
      have hother' : Function.update failed (!a) (c :: failed (!a)) (!a) = c :: failed (!a) :=
        Function.update_self _ _ _
      refine ⟨Function.update failed (!a) (c :: failed (!a)), h.put rfl hrest (.cons
        (says_failure (.inr (.inr (.inr ⟨_, rfl, hid⟩))) JSON.noConfusion hwritable) .nil) ?_ ?_
        (h.keys a) ?_, rfl⟩
      · rw [hself']
        simpa [Mail.call?, Mail.result?] using hself
      · rw [hother']
        classical
        rw [List.perm_iff_count] at hother ⊢
        intro c'
        have := hother c'
        simp only [calls_cons, results_append, results_cons, results_nil, Mail.call?, Mail.result?,
          Option.toList_some, Option.toList_none, List.append_nil, List.count_append,
          List.count_cons, List.count_nil] at this ⊢
        omega
      · rw [hself', hother', List.length_cons, ← Nat.add_assoc, hfailures]
        simp [Mail.isFailure, Nat.add_assoc]
  | notify method params =>
    have hdispatch : Rpc.dispatch E (M a) (s a).state data =
        ⟨{ (s a).state with state := onNotify (M a) method params (s a).state.state }, none,
          none⟩ := by
      unfold Rpc.dispatch
      rw [hmail]
      rfl
    rw [hdispatch, ← h.state a]
    refine ⟨failed, h.put rfl hrest .nil ?_ ?_ (h.keys a) ?_, rfl⟩
    · simpa [serve, Mail.call?, Mail.result?] using hself
    · simpa [serve, Mail.call?, Mail.result?] using hother
    · simpa [serve, Mail.isFailure] using hfailures
  | result v c =>
    have hmap : (s a).state.callbackMap.Perm
        (c :: (calls (w (!a)).inbox ++ results mails ++ failed a)) := by
      apply hself.trans
      simp only [results_cons, Mail.result?, Option.toList_some, List.append_assoc]
      exact List.perm_middle
    obtain ⟨hfind, htake, hkeys⟩ := take_spec (h.keys a) hmap
    have hdispatch : Rpc.dispatch E (M a) (s a).state data =
        ⟨{ (s a).state with callbackMap := (take c.1 (s a).state.callbackMap).2 }, none,
          some (c.2, ⟨version, .string c.1, resultOf v, none⟩)⟩ := by
      unfold Rpc.dispatch
      rw [hmail]
      dsimp only
      rw [Option.elim_none, onResponse]
      dsimp only
      rw [hfind]
      rfl
    rw [hdispatch]
    refine ⟨failed, h.put (h.state a) hrest .nil ?_ ?_ hkeys ?_, ?_⟩
    · simpa [serve] using htake
    · simpa [serve, Mail.call?, Mail.result?] using hother
    · simpa [serve, Mail.isFailure] using hfailures
    · have hvalue : Response.takeResultAsJSON E ⟨version, .string c.1, resultOf v, none⟩ = v := by
        unfold Response.takeResultAsJSON resultOf
        cases v <;> rfl
      exact congrArg (fun r => some (c.2, r)) hvalue
  | failure =>
    obtain ⟨id, e, hparse, he⟩ := hmail
    have hdispatch : Rpc.dispatch E (M a) (s a).state data =
        ⟨(s a).state, some (Response.text E (.ofError .null e)), none⟩ := by
      unfold Rpc.dispatch
      rw [hparse]
      rfl
    rw [hdispatch]
    refine ⟨failed, h.put (h.state a) hrest
      (.cons (says_failure (.inr (.inl rfl)) JSON.noConfusion he) .nil) ?_ ?_ (h.keys a) ?_, rfl⟩
    · simpa [serve, Mail.call?, Mail.result?] using hself
    · simpa [serve, Mail.call?, Mail.result?] using hother
    · simp only [serve, failures_append, failures_cons, failures_nil] at hfailures ⊢
      omega

end

/-! ## Runs -/

/-- Nothing has been called, and nothing is under way. -/
def start (κ : Type) (state : Bool → σ) : Bool → Party (Handler σ κ) Bytes :=
  fun a => ⟨⟨state a, []⟩, []⟩

def directStart (κ : Type) (state : Bool → σ) : Bool → Party σ (Mail κ) := fun a => ⟨state a, []⟩

/-- The direct system does the same. -/
def Follows (E : Env) (s : Bool → Party (Handler σ κ) Bytes) (t : Bool → Party σ (Mail κ)) : Prop :=
  ∃ w failed, Tracks E s w failed ∧ t = fun b => untag (w b)

section
variable {s s' : Bool → Party (Handler σ κ) Bytes} {t : Bool → Party σ (Mail κ)} {x : Turn κ}
  {xs : List (Turn κ)} {state : Bool → σ}

theorem follows_start (state : Bool → σ) : Follows E (start κ state) (directStart κ state) :=
  ⟨fun a => ⟨state a, []⟩, fun _ => [],
    ⟨fun _ => rfl, fun _ => .nil, fun _ => .nil, fun _ => .nil, rfl⟩, rfl⟩

theorem Step.follows (h : Step E M s x s') (hM : ∀ a, (M a).Writable E) (hx : x.act.Writable E)
    (hR : Follows E s t) : ∃ t', DirectStep E M t x t' ∧ Follows E s' t' := by
  obtain ⟨w, failed, htracks, rfl⟩ := hR
  cases h with
  | @call a method params callback _ id map hid =>
    obtain ⟨hmethod, v, hv, hkind⟩ := hx
    have hput := htracks.call hid hmethod hv hkind
    refine ⟨_, .call, _, _, hput, ?_⟩
    rw [untag_put, toJSON_of_stands hv (by decide)]
    rfl
  | @notify a method params =>
    obtain ⟨hmethod, v, hv, hkind⟩ := hx
    have hput := htracks.notify (a := a) hmethod hv hkind
    refine ⟨_, .notify, _, _, hput, ?_⟩
    rw [untag_put, toJSON_of_stands hv (by decide)]
    rfl
  | @dispatch a data inbox hinbox =>
    have hforall := htracks.inbox a
    rw [hinbox] at hforall
    obtain ⟨mail, mails, -, -, hmails⟩ := List.forall₂_cons_left_iff.1 hforall
    obtain ⟨failed', hput, hevent⟩ := htracks.dispatch hinbox hmails (hM a)
    have hserve := serve_map (E := E) (Prod.snd (α := Bytes)) (M a) (w a).state mail
    have hstep := @DirectStep.dispatch σ κ E M (fun b => untag (w b)) a
      (mail.map Prod.snd) (mails.map (Mail.map Prod.snd))
      (by rw [untag, hmails]; rfl)
    refine ⟨_, ?_, _, failed', hput, rfl⟩
    rw [untag_put, hevent]
    unfold untag at hstep ⊢
    dsimp only at hstep
    rw [hserve] at hstep
    exact hstep

/-- The callbacks that a party has handed over with its calls. -/
def called (a : Bool) (xs : List (Turn κ)) : List κ :=
  xs.filterMap fun x =>
    match x.act with
    | .call _ _ callback => if x.party = a then some callback else none
    | _ => none

/-- The callbacks of a party that have been run. -/
def returned (a : Bool) (xs : List (Turn κ)) : List κ :=
  xs.filterMap fun x => if x.party = a then x.returned.map Prod.fst else none

/-- Whatever is received, at most one callback is run, and it does not wait any more. -/
theorem dispatch_callbacks (M : Methods σ) {h : Handler σ κ}
    (hkeys : (h.callbackMap.map Prod.fst).Nodup) (data : Bytes) :
    ((Rpc.dispatch E M h data).handler.callbackMap.map Prod.fst).Nodup ∧
      (h.callbackMap.map Prod.snd).Perm
        (((Rpc.dispatch E M h data).called.map Prod.fst).toList ++
          (Rpc.dispatch E M h data).handler.callbackMap.map Prod.snd) := by
  unfold Rpc.dispatch
  cases parseMessage E data with
  | request req =>
    dsimp only
    split <;> exact ⟨hkeys, .refl _⟩
  | response res =>
    dsimp only
    cases res.error with
    | some e => exact ⟨hkeys, .refl _⟩
    | none =>
      rw [Option.elim_none, onResponse]
      split
      · next id _ =>
        cases hfind : (take id h.callbackMap).1 with
        | none => exact ⟨hkeys, .refl _⟩
        | some callback =>
          obtain ⟨before, after, heq⟩ := List.append_of_mem (mapFind_mem hfind)
          have hmap : h.callbackMap.Perm ((id, callback) :: (before ++ after)) := by
            rw [heq]
            exact List.perm_middle
          obtain ⟨-, htake, hkeys'⟩ := take_spec hkeys hmap
          exact ⟨hkeys', (hmap.map Prod.snd).trans ((htake.map Prod.snd).symm.cons callback)⟩
      · exact ⟨hkeys, .refl _⟩

theorem called_cons (a : Bool) : called a (x :: xs) = called a [x] ++ called a xs :=
  List.filterMap_append (l := [x])

theorem returned_cons (a : Bool) : returned a (x :: xs) = returned a [x] ++ returned a xs :=
  List.filterMap_append (l := [x])

/-- What has been called returns or waits. -/
theorem Step.callbacks (h : Step E M s x s') (b : Bool)
    (hkeys : ((s b).state.callbackMap.map Prod.fst).Nodup) :
    ((s' b).state.callbackMap.map Prod.fst).Nodup ∧
      (returned b [x] ++ (s' b).state.callbackMap.map Prod.snd).Perm
        ((s b).state.callbackMap.map Prod.snd ++ called b [x]) := by
  cases h with
  | @call a method params callback _ id map hid =>
    rcases Bool.eq_or_eq_not b a with rfl | rfl
    · obtain ⟨-, hnone, rfl⟩ := add_spec hid
      rw [put_self]
      refine ⟨keys_add hkeys hnone, ?_⟩
      simp [returned, called]
    · rw [put_not]
      refine ⟨hkeys, ?_⟩
      simp [returned, called]
  | @notify a method params =>
    rcases Bool.eq_or_eq_not b a with rfl | rfl
    · rw [put_self]
      refine ⟨hkeys, ?_⟩
      simp [returned, called]
    · rw [put_not]
      refine ⟨hkeys, ?_⟩
      simp [returned, called]
  | @dispatch a data inbox hinbox =>
    rcases Bool.eq_or_eq_not b a with rfl | rfl
    · rw [put_self]
      obtain ⟨hkeys', hperm⟩ := dispatch_callbacks (E := E) (M b) hkeys data
      refine ⟨hkeys', ?_⟩
      have hreturned : returned b [⟨b, .dispatch, (Rpc.dispatch E (M b) (s b).state data).called.map
          (Prod.map id (Response.takeResultAsJSON E))⟩] =
            ((Rpc.dispatch E (M b) (s b).state data).called.map Prod.fst).toList := by
        cases (Rpc.dispatch E (M b) (s b).state data).called <;> simp [returned]
      rw [hreturned]
      simpa [called] using hperm.symm
    · rw [put_not]
      refine ⟨hkeys, ?_⟩
      simp [returned, called]

/-- In a run a callback of a call has been run, once, or waits. -/
theorem run_callbacks (h : Run (Step E M) s xs s') (b : Bool)
    (hkeys : ((s b).state.callbackMap.map Prod.fst).Nodup) :
    (returned b xs ++ (s' b).state.callbackMap.map Prod.snd).Perm
      ((s b).state.callbackMap.map Prod.snd ++ called b xs) := by
  induction h with
  | nil => exact List.perm_append_comm
  | @cons s s₁ s' x xs h _ ih =>
    obtain ⟨hkeys₁, hperm⟩ := h.callbacks b hkeys
    have hrest := ih hkeys₁
    rw [returned_cons, called_cons, List.append_assoc, ← List.append_assoc _ (called b [x])]
    refine (hrest.append_left _).trans ?_
    rw [← List.append_assoc]
    exact hperm.append_right _

/-- The two handlers do what the direct system does. -/
theorem handlers_direct (hM : ∀ a, (M a).Writable E) (hxs : ∀ x ∈ xs, x.act.Writable E)
    (h : Run (Step E M) (start κ state) xs s) :
    ∃ t, Run (DirectStep E M) (directStart κ state) xs t ∧
      ∀ a, (s a).state.state = (t a).state ∧ (s a).inbox.length = (t a).inbox.length := by
  obtain ⟨t, hrun, w, failed, htracks, rfl⟩ := h.simulates (P := fun x => x.act.Writable E)
    (fun _ _ _ _ hstep hx hR => hstep.follows hM hx hR) hxs (follows_start state)
  refine ⟨_, hrun, fun a => ⟨htracks.state a, ?_⟩⟩
  rw [untag, List.length_map]
  exact (htracks.inbox a).length_eq

/-- Every call has returned once, or its callback waits; and then some message is under way, if all
that is written can be read. -/
theorem returned_unless_under_way (h : Run (Step E M) (start κ state) xs s) (a : Bool) :
    (returned a xs ++ (s a).state.callbackMap.map Prod.snd).Perm (called a xs) ∧
      ((∀ b, (M b).Writable E) → (∀ x ∈ xs, x.act.Writable E) → (∀ b, (s b).inbox = []) →
        (s a).state.callbackMap = []) := by
  refine ⟨run_callbacks h a List.nodup_nil, fun hM hxs hempty => ?_⟩
  obtain ⟨t, -, w, failed, htracks, -⟩ := h.simulates (P := fun x => x.act.Writable E)
    (fun _ _ _ _ hstep hx hR => hstep.follows hM hx hR) hxs (follows_start state)
  have hw (b : Bool) : (w b).inbox = [] := by
    have hinbox := htracks.inbox b
    rw [hempty b] at hinbox
    exact List.forall₂_nil_left_iff.1 hinbox
  have hfailures := htracks.failures_eq a
  have hwaiting := htracks.waiting a
  rw [hw, hw, failures_nil] at hfailures
  rw [hw, hw, List.length_eq_zero_iff.1 (Nat.eq_zero_of_add_eq_zero_right hfailures)] at hwaiting
  exact List.Perm.eq_nil hwaiting

end

end

/-! ## A call that returns -/

def sampleMethods : Methods Nat := ⟨[(bytes "/put", fun _ n => (.ok (bytes "true"), n + 1))], []⟩

def sampleTurns : List (Turn Nat) :=
  [⟨true, .call (bytes "/put") [] 7, none⟩, ⟨false, .dispatch, none⟩,
    ⟨true, .dispatch, some (7, .bool true)⟩]

theorem sampleMethods_writable : sampleMethods.Writable sampleEnv := by
  refine List.forall_mem_singleton.2 fun _ _ => ⟨.bool true, .inr ?_⟩
  exact Denotes.of_plain (n := maxNestingDepth - 2) (v := .bool true) trivial sampleEnv.fromDouble

theorem sampleTurns_writable : ∀ x ∈ sampleTurns, x.act.Writable sampleEnv :=
  List.forall_mem_cons.2 ⟨⟨textual_of_ascii (by decide), .invalid, .inl ⟨rfl, rfl⟩, .inl rfl⟩,
    List.forall_mem_cons.2 ⟨trivial, List.forall_mem_singleton.2 trivial⟩⟩

def sampleId : Bytes := idText (1, 10)

/-- The text of the call. -/
def sampleCall : Bytes :=
  RequestBase.text sampleEnv ⟨version, .string sampleId, bytes "/put", []⟩

def sampleReply : Bytes := reply sampleEnv (.string sampleId) (.ok (bytes "true"))

theorem sampleRun : ∃ s : Bool → Party (Handler Nat Nat) Bytes,
    Run (Step sampleEnv fun _ => sampleMethods) (start Nat fun _ => 0) sampleTurns s ∧
      ∀ b, (s b).inbox = [] := by
  have hid : Textual sampleId := textual_idText (1, 10)
  have hcall := @parseMessage_request sampleEnv
    ⟨version, .string sampleId, bytes "/put", []⟩ .invalid textual_version
    (.inr (.inr (.inr ⟨_, rfl, hid⟩))) (textual_of_ascii (by decide)) (.inl ⟨rfl, rfl⟩) (.inl rfl)
  have htrue : Denotes sampleEnv.toDouble (maxNestingDepth - 2) (bytes "true") (.bool true) :=
    .of_plain (n := maxNestingDepth - 2) (v := .bool true) trivial sampleEnv.fromDouble
  have hresult := parseMessage_response (E := sampleEnv) (v := .bool true)
    ⟨version, .string sampleId, some (.inr (bytes "true")), none⟩ textual_version
    (.inr (.inr (.inr ⟨_, rfl, hid⟩))) JSON.noConfusion (.inr htrue) (fun _ he => by cases he)
    fun _ => JSON.noConfusion
  have hserve : dispatch sampleEnv sampleMethods (⟨0, []⟩ : Handler Nat Nat) sampleCall =
      ⟨⟨1, []⟩, some sampleReply, none⟩ := by
    unfold dispatch sampleCall
    rw [hcall]
    rfl
  have hreturn : dispatch sampleEnv sampleMethods (⟨0, [(sampleId, 7)]⟩ : Handler Nat Nat)
      sampleReply =
        ⟨⟨0, []⟩, none, some (7, ⟨version, .string sampleId, resultOf (.bool true), none⟩)⟩ := by
    unfold dispatch sampleReply reply
    rw [hresult]
    rfl
  have h₁ := @Step.call Nat Nat sampleEnv (fun _ => sampleMethods)
    (start Nat fun _ => 0) true (bytes "/put") [] 7 [(1, 10)] sampleId [(sampleId, 7)] rfl
  have h₂ := @Step.dispatch Nat Nat sampleEnv (fun _ => sampleMethods)
    (put (start Nat fun _ => 0) true ⟨⟨0, [(sampleId, 7)]⟩, []⟩ [sampleCall])
    false sampleCall [] rfl
  change Step _ _ _ ⟨_, _, (dispatch sampleEnv sampleMethods ⟨0, []⟩ sampleCall).called.map _⟩
    (put _ _ ⟨(dispatch sampleEnv sampleMethods ⟨0, []⟩ sampleCall).handler, _⟩
      (dispatch sampleEnv sampleMethods ⟨0, []⟩ sampleCall).sent.toList) at h₂
  rw [hserve] at h₂
  have h₃ := @Step.dispatch Nat Nat sampleEnv (fun _ => sampleMethods)
    (put (put (start Nat fun _ => 0) true ⟨⟨0, [(sampleId, 7)]⟩, []⟩ [sampleCall]) false
      ⟨⟨1, []⟩, []⟩ [sampleReply]) true sampleReply [] rfl
  change Step _ _ _
    ⟨_, _, (dispatch sampleEnv sampleMethods ⟨0, [(sampleId, 7)]⟩ sampleReply).called.map _⟩
    (put _ _ ⟨(dispatch sampleEnv sampleMethods ⟨0, [(sampleId, 7)]⟩ sampleReply).handler, _⟩
      (dispatch sampleEnv sampleMethods ⟨0, [(sampleId, 7)]⟩ sampleReply).sent.toList) at h₃
  rw [hreturn] at h₃
  exact ⟨_, .cons h₁ (.cons h₂ (.cons h₃ .nil)), fun b => by cases b <;> rfl⟩

theorem handlers_direct_sample : ∃ (s : Bool → Party (Handler Nat Nat) Bytes)
    (t : Bool → Party Nat (Mail Nat)),
    Run (Step sampleEnv fun _ => sampleMethods) (start Nat fun _ => 0) sampleTurns s ∧
      Run (DirectStep sampleEnv fun _ => sampleMethods) (directStart Nat fun _ => 0)
        sampleTurns t ∧
      ∀ a, (s a).state.state = (t a).state ∧ (s a).inbox.length = (t a).inbox.length := by
  obtain ⟨s, hrun, -⟩ := sampleRun
  obtain ⟨t, ht⟩ := handlers_direct (fun _ => sampleMethods_writable) sampleTurns_writable hrun
  exact ⟨s, t, hrun, ht⟩

theorem returned_unless_under_way_sample : ∃ s : Bool → Party (Handler Nat Nat) Bytes,
    (returned true sampleTurns ++ (s true).state.callbackMap.map Prod.snd).Perm
        (called true sampleTurns) ∧ (s true).state.callbackMap = [] := by
  obtain ⟨s, hrun, hempty⟩ := sampleRun
  obtain ⟨hperm, hreturned⟩ := returned_unless_under_way hrun true
  exact ⟨s, hperm, hreturned (fun _ => sampleMethods_writable) sampleTurns_writable hempty⟩

end Arsh.Rpc

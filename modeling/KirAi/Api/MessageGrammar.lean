/-
# The order of messages

`validate_chat_messages` decides on the order of messages in one pass, with the ids of the calls
that are still to be answered. Messages that pass every other check are accepted just if they
are a conversation: system messages, and then messages of users, of the assistant, and calls
of the assistant each followed by its answers (`Conversation`). In the middle of the pass the
messages that are left are accepted if they answer the pending calls first (`Resumes`).

Key definitions: `PassesAlone`, `Turns`, `Conversation`, `Resumes`.
Key theorems: `accepted_iff_resumes`, `validateChatMessages_iff_conversation`.
-/
import KirAi.Api.Validation

namespace KirAi.Api

open Lib Lib.Text
open KirAi.Runtime (Str ToolCall ToolCallType ToolCallFunction trim)

/-! ### The grammar -/

/-- Tool messages that answer the calls with some ids, each once, in any order. -/
def AnswersAll (ids : List Str) (answers : List ChatMessage) : Prop :=
  (∀ m ∈ answers, m.role = .tool) ∧ (answers.map (·.toolCallId)).Perm (ids.map some)

/-- What may follow the system messages. -/
inductive Turns : List ChatMessage → Prop
  | nil : Turns []
  | user {m : ChatMessage} {rest : List ChatMessage} : m.role = .user → Turns rest →
      Turns (m :: rest)
  | assistant {m : ChatMessage} {rest : List ChatMessage} : m.role = .assistant →
      m.toolCalls = [] → Turns rest → Turns (m :: rest)
  | calls {m : ChatMessage} {answers rest : List ChatMessage} : m.role = .assistant →
      m.toolCalls ≠ [] → (m.toolCalls.map (·.id)).Nodup →
      AnswersAll (m.toolCalls.map (·.id)) answers → Turns rest → Turns (m :: (answers ++ rest))

def Conversation (messages : List ChatMessage) : Prop :=
  ∃ systems rest, messages = systems ++ rest ∧ (∀ m ∈ systems, m.role = .system) ∧ Turns rest

/-! ### The checks of a message for itself -/

/-- The checks of a message, without the one that looks at the messages before it. -/
def validateAlone (limits : RequestLimits) (index : ℕ) (message : ChatMessage) : Validate Unit := do
  let label := s!"messages[{index}].content"
  validateChatMessageRoleFields index message label
  validateContent label limits message.content
  validateName index message.name
  validateToolCallId index message.role message.toolCallId
  validateLenAtMost s!"messages[{index}].tool_calls" message.toolCalls.length
    maxToolCallsPerMessage
  validateToolCalls index 0 message.toolCalls

/-- A message that passes these checks, at whatever place. -/
def PassesAlone (limits : RequestLimits) (message : ChatMessage) : Prop :=
  ∃ index, validateAlone limits index message = .ok ()

theorem validateStringBytes_ok {label : String} {value : Str} {max : ℕ} :
    validateStringBytes label value max = .ok () ↔ len value ≤ max := by
  unfold validateStringBytes
  by_cases h : len value > max
  · rw [if_pos h]
    exact ⟨nofun, fun hle => absurd h (Nat.not_lt.2 hle)⟩
  · rw [if_neg h]
    exact ⟨fun _ => Nat.not_lt.1 h, fun _ => rfl⟩

theorem validateNonEmptyString_ok {label : String} {value : Str} :
    validateNonEmptyString label value = .ok () ↔ (trim value).isEmpty = false := by
  unfold validateNonEmptyString
  by_cases h : (trim value).isEmpty = true
  · rw [if_pos h]
    exact ⟨nofun, fun hne => by rw [h] at hne; cases hne⟩
  · rw [if_neg h]
    exact ⟨fun _ => by simpa using h, fun _ => rfl⟩

theorem validateLenAtMost_ok {label : String} {actual max : ℕ} :
    validateLenAtMost label actual max = .ok () ↔ actual ≤ max := by
  unfold validateLenAtMost
  by_cases h : actual > max
  · rw [if_pos h]
    exact ⟨nofun, fun hle => absurd h (Nat.not_lt.2 hle)⟩
  · rw [if_neg h]
    exact ⟨fun _ => Nat.not_lt.1 h, fun _ => rfl⟩

section Alone

variable {limits : RequestLimits} {i j : ℕ} {message : ChatMessage}

theorem roleFields_index {label label' : String}
    (h : validateChatMessageRoleFields i message label = .ok ()) :
    validateChatMessageRoleFields j message label' = .ok () := by
  have hid : rejectToolCallIdForNonToolMessage i message = .ok () →
      rejectToolCallIdForNonToolMessage j message = .ok () := by
    unfold rejectToolCallIdForNonToolMessage
    split <;> intro h
    · cases h
    · rfl
  have hcalls : rejectToolCallsForNonAssistantMessage i message = .ok () →
      rejectToolCallsForNonAssistantMessage j message = .ok () := by
    unfold rejectToolCallsForNonAssistantMessage
    split <;> intro h
    · cases h
    · rfl
  unfold validateChatMessageRoleFields at h ⊢
  cases hrole : message.role with
  | system | user =>
    simp only [hrole] at h ⊢
    by_cases hcontent : message.content.isNone = true
    · rw [if_pos hcontent] at h
      cases h
    · rw [if_neg hcontent] at h ⊢
      obtain ⟨_, hfirst, hsecond⟩ := bind_eq_ok.1 h
      rw [hid hfirst, ok_bind]
      exact hcalls hsecond
  | assistant =>
    simp only [hrole] at h ⊢
    by_cases hempty : (message.content.isNone && message.toolCalls.isEmpty) = true
    · rw [if_pos hempty] at h
      cases h
    · rw [if_neg hempty] at h ⊢
      exact hid h
  | tool =>
    simp only [hrole] at h ⊢
    by_cases hcontent : message.content.isNone = true
    · rw [if_pos hcontent] at h
      cases h
    · rw [if_neg hcontent] at h ⊢
      by_cases htool : message.toolCallId.isNone = true
      · rw [if_pos htool] at h
        cases h
      · rw [if_neg htool] at h ⊢
        exact hcalls h

theorem validateToolCalls_index : ∀ {k l : ℕ} {calls : List (ToolCall Json)},
    validateToolCalls i k calls = .ok () → validateToolCalls j l calls = .ok ()
  | _, _, [], _ => rfl
  | k, l, call :: calls, h => by
    obtain ⟨_, hcall, hrest⟩ := bind_eq_ok.1 h
    obtain ⟨_, hid, hcall⟩ := bind_eq_ok.1 hcall
    obtain ⟨_, hempty, hcall⟩ := bind_eq_ok.1 hcall
    obtain ⟨_, hname, harguments⟩ := bind_eq_ok.1 hcall
    have hcall' : validateToolCall j l call = .ok () := by
      unfold validateToolCall
      rw [validateStringBytes_ok.2 (validateStringBytes_ok.1 hid), ok_bind,
        validateNonEmptyString_ok.2 (validateNonEmptyString_ok.1 hempty), ok_bind,
        validateStringBytes_ok.2 (validateStringBytes_ok.1 hname), ok_bind]
      unfold validateJsonBytesAtMost at harguments ⊢
      split at harguments
      · next hsize => rw [if_pos hsize]
      · cases harguments
    rw [validateToolCalls, hcall', ok_bind]
    exact validateToolCalls_index hrest

/-- The place of a message only stands in the errors. -/
theorem validateAlone_index (h : validateAlone limits i message = .ok ()) :
    validateAlone limits j message = .ok () := by
  unfold validateAlone at h ⊢
  dsimp only at h ⊢
  obtain ⟨_, hfields, h⟩ := bind_eq_ok.1 h
  obtain ⟨_, hcontent, h⟩ := bind_eq_ok.1 h
  obtain ⟨_, hname, h⟩ := bind_eq_ok.1 h
  obtain ⟨_, hid, h⟩ := bind_eq_ok.1 h
  obtain ⟨_, hlen, hcalls⟩ := bind_eq_ok.1 h
  have hcontent' : validateContent s!"messages[{j}].content" limits message.content = .ok () := by
    cases hc : message.content with
    | none => rfl
    | some content =>
      rw [hc] at hcontent
      exact validateStringBytes_ok.2 (validateStringBytes_ok.1 hcontent)
  have hname' : validateName j message.name = .ok () := by
    cases hn : message.name with
    | none => rfl
    | some name =>
      rw [hn] at hname
      exact validateStringBytes_ok.2 (validateStringBytes_ok.1 hname)
  have hid' : validateToolCallId j message.role message.toolCallId = .ok () := by
    cases ht : message.toolCallId with
    | none => rfl
    | some toolCallId =>
      rw [ht] at hid
      unfold validateToolCallId at hid ⊢
      dsimp only at hid ⊢
      by_cases hrole : message.role = .tool
      · rw [if_pos hrole] at hid ⊢
        obtain ⟨_, hempty, hbytes⟩ := bind_eq_ok.1 hid
        rw [validateNonEmptyString_ok.2 (validateNonEmptyString_ok.1 hempty), ok_bind]
        exact validateStringBytes_ok.2 (validateStringBytes_ok.1 hbytes)
      · rw [if_neg hrole] at hid ⊢
        exact validateStringBytes_ok.2 (validateStringBytes_ok.1 hid)
  rw [roleFields_index hfields, ok_bind, hcontent', ok_bind, hname', ok_bind, hid', ok_bind,
    validateLenAtMost_ok.2 (validateLenAtMost_ok.1 hlen), ok_bind]
  exact validateToolCalls_index hcalls

/-- What is left to decide on such a message is its order. -/
theorem validateChatMessage_alone (h : PassesAlone limits message) (order : MessageOrder) :
    validateChatMessage limits i message order = validateChatMessageOrder i message order := by
  obtain ⟨k, hk⟩ := h
  have halone := validateAlone_index (j := i) hk
  unfold validateAlone at halone
  dsimp only at halone
  obtain ⟨_, hfields, halone⟩ := bind_eq_ok.1 halone
  obtain ⟨_, hcontent, halone⟩ := bind_eq_ok.1 halone
  obtain ⟨_, hname, halone⟩ := bind_eq_ok.1 halone
  obtain ⟨_, hid, halone⟩ := bind_eq_ok.1 halone
  obtain ⟨_, hlen, hcalls⟩ := bind_eq_ok.1 halone
  unfold validateChatMessage
  dsimp only
  rw [hfields, ok_bind]
  cases validateChatMessageOrder i message order with
  | error e => rfl
  | ok order' =>
    rw [ok_bind, hcontent, ok_bind, hname, ok_bind, hid, ok_bind, hlen, ok_bind, hcalls]
    rfl

end Alone

/-! ### The pass -/

/-- The ids of the calls of a message are collected just if they differ. -/
theorem insertToolCallIds_ok_iff {index : ℕ} : ∀ {callIndex : ℕ} {calls : List (ToolCall Json)}
    {ids ids' : List Str}, ids.Nodup →
    (insertToolCallIds index callIndex calls ids = .ok ids' ↔
      ids' = ids ++ calls.map (·.id) ∧ (ids ++ calls.map (·.id)).Nodup)
  | _, [], ids, ids', hids => by
    rw [insertToolCallIds, List.map_nil, List.append_nil]
    exact ⟨fun h => ⟨(Except.ok.inj h).symm, hids⟩, fun h => by rw [h.1]⟩
  | callIndex, call :: calls, ids, ids', hids => by
    have happend : ids ++ (call :: calls).map (·.id) = (ids ++ [call.id]) ++ calls.map (·.id) := by
      rw [List.map_cons, List.append_assoc, List.singleton_append]
    rw [insertToolCallIds, happend]
    by_cases hmem : ids.contains call.id = true
    · rw [if_pos hmem]
      refine ⟨nofun, fun ⟨_, hnodup⟩ => absurd (List.contains_iff_mem.1 hmem) ?_⟩
      have hfirst := (List.nodup_append.1 hnodup).1
      exact fun hin => (List.nodup_append.1 hfirst).2.2 _ hin _ (List.mem_singleton_self _) rfl
    · rw [if_neg hmem]
      refine insertToolCallIds_ok_iff ?_
      have hnot : call.id ∉ ids := fun hin => hmem (List.contains_iff_mem.2 hin)
      rw [List.nodup_append]
      exact ⟨hids, List.nodup_singleton _, fun a ha b hb => by
        rw [List.mem_singleton.1 hb]
        rintro rfl
        exact hnot ha⟩

/-- The messages that are left when some calls are to be answered. -/
def Resumes (pending : List Str) (messages : List ChatMessage) : Prop :=
  ∃ answers rest, messages = answers ++ rest ∧ AnswersAll pending answers ∧ Turns rest

theorem answersAll_nil {answers : List ChatMessage} : AnswersAll [] answers ↔ answers = [] := by
  constructor
  · rintro ⟨-, hperm⟩
    rw [List.map_nil, List.perm_nil] at hperm
    exact List.map_eq_nil_iff.1 hperm
  · rintro rfl
    exact ⟨nofun, .refl _⟩

theorem resumes_nil {messages : List ChatMessage} : Resumes [] messages ↔ Turns messages := by
  constructor
  · rintro ⟨answers, rest, rfl, hanswers, hrest⟩
    rw [answersAll_nil.1 hanswers]
    exact hrest
  · exact fun h => ⟨[], messages, rfl, answersAll_nil.2 rfl, h⟩

section Resumes

variable {m : ChatMessage} {messages : List ChatMessage} {pending : List Str}

/-- Pending calls are answered next. -/
theorem resumes_cons_of_role (hrole : m.role ≠ .tool) :
    Resumes pending (m :: messages) ↔ pending = [] ∧ Turns (m :: messages) := by
  constructor
  · rintro ⟨answers, rest, heq, hanswers, hrest⟩
    cases answers with
    | nil =>
      have hpending : pending = [] := by simpa using hanswers.2
      rw [List.nil_append] at heq
      exact ⟨hpending, heq ▸ hrest⟩
    | cons a answers =>
      obtain ⟨rfl, -⟩ := List.cons.inj heq
      exact absurd (hanswers.1 _ (List.mem_cons_self ..)) hrole
  · rintro ⟨rfl, hturns⟩
    exact resumes_nil.2 hturns

/-- A tool message answers one of the pending calls. -/
theorem resumes_cons_tool (hrole : m.role = .tool) :
    Resumes pending (m :: messages) ↔
      ∃ id, m.toolCallId = some id ∧ id ∈ pending ∧ Resumes (pending.erase id) messages := by
  constructor
  · rintro ⟨answers, rest, heq, hanswers, hrest⟩
    cases answers with
    | nil =>
      rw [List.nil_append] at heq
      rw [← heq] at hrest
      cases hrest with
      | user h _ | assistant h _ _ | calls h _ _ _ _ =>
        rw [hrole] at h
        cases h
    | cons a answers =>
      obtain ⟨rfl, rfl⟩ := List.cons.inj heq
      obtain ⟨htool, hperm⟩ := hanswers
      rw [List.map_cons] at hperm
      obtain ⟨id, hid, hm⟩ := List.mem_map.1 (hperm.subset (List.mem_cons_self ..))
      have hrest' : (m.toolCallId :: (pending.erase id).map some).Perm (pending.map some) := by
        rw [← hm, ← List.map_cons]
        exact (List.perm_cons_erase hid).symm.map some
      refine ⟨id, hm.symm, hid, answers, rest, rfl, ⟨fun a ha => ?_, ?_⟩, hrest⟩
      · exact htool a (List.mem_cons_of_mem _ ha)
      · exact (hperm.trans hrest'.symm).cons_inv
  · rintro ⟨id, hm, hid, answers, rest, rfl, ⟨htool, hperm⟩, hrest⟩
    refine ⟨m :: answers, rest, rfl, ⟨?_, ?_⟩, hrest⟩
    · rintro a ha
      rcases List.mem_cons.1 ha with rfl | ha
      · exact hrole
      · exact htool a ha
    · rw [List.map_cons, hm]
      refine (hperm.cons (some id)).trans ?_
      rw [← List.map_cons]
      exact (List.perm_cons_erase hid).symm.map some

/-- A call of the assistant leaves its own calls pending. -/
theorem turns_cons_assistant (hrole : m.role = .assistant) :
    Turns (m :: messages) ↔ (m.toolCalls.map (·.id)).Nodup ∧
      Resumes (m.toolCalls.map (·.id)) messages := by
  constructor
  · intro h
    cases h with
    | user hm _ =>
      rw [hrole] at hm
      cases hm
    | assistant _ hcalls hrest =>
      rw [hcalls]
      exact ⟨List.nodup_nil, resumes_nil.2 hrest⟩
    | calls _ _ hnodup hanswers hrest => exact ⟨hnodup, _, _, rfl, hanswers, hrest⟩
  · rintro ⟨hnodup, answers, rest, rfl, hanswers, hrest⟩
    by_cases hcalls : m.toolCalls = []
    · rw [hcalls] at hanswers
      obtain rfl := answersAll_nil.1 hanswers
      exact .assistant hrole hcalls hrest
    · exact .calls hrole hcalls hnodup hanswers hrest

end Resumes

/-- The pass goes through and leaves no call unanswered. -/
def Accepted (limits : RequestLimits) (index : ℕ) (order : MessageOrder)
    (messages : List ChatMessage) : Prop :=
  ∃ order', validateEachMessage limits index order messages = .ok order' ∧
    order'.pendingToolCallMessage = none

/-- A message is remembered just while its calls are pending. -/
def Remembered (order : MessageOrder) : Prop :=
  order.pendingToolCallMessage = none ↔ order.pendingToolCallIds = []

section Pass

variable {limits : RequestLimits} {index : ℕ} {order : MessageOrder} {m : ChatMessage}
  {messages : List ChatMessage}

theorem accepted_nil : Accepted limits index order [] ↔ order.pendingToolCallMessage = none :=
  ⟨fun ⟨_, h, hnone⟩ => Except.ok.inj h ▸ hnone, fun h => ⟨order, rfl, h⟩⟩

theorem accepted_cons (halone : PassesAlone limits m) :
    Accepted limits index order (m :: messages) ↔
      ∃ order', validateChatMessageOrder index m order = .ok order' ∧
        Accepted limits (index + 1) order' messages := by
  unfold Accepted
  rw [validateEachMessage, validateChatMessage_alone halone]
  constructor
  · rintro ⟨order'', h, hnone⟩
    obtain ⟨order', hfirst, hrest⟩ := bind_eq_ok.1 h
    exact ⟨order', hfirst, order'', hrest, hnone⟩
  · rintro ⟨order', hfirst, order'', hrest, hnone⟩
    refine ⟨order'', ?_, hnone⟩
    rw [hfirst, ok_bind, hrest]

theorem rejectPending_ok {index : ℕ} {order : MessageOrder} :
    rejectNonToolMessageWhileToolCallsPending index order = .ok () ↔
      order.pendingToolCallIds = [] := by
  unfold rejectNonToolMessageWhileToolCallsPending
  by_cases h : order.pendingToolCallIds.isEmpty = true
  · rw [if_pos h]
    exact ⟨fun _ => List.isEmpty_iff.1 h, fun _ => rfl⟩
  · rw [if_neg h]
    exact ⟨nofun, fun hnil => absurd (List.isEmpty_iff.2 hnil) h⟩

/-- **The pass.** Once the conversation has begun, the pass accepts what answers the pending
calls and goes on in turns. -/
theorem accepted_iff_resumes : ∀ {messages : List ChatMessage} {index : ℕ} {order : MessageOrder},
    (∀ m ∈ messages, PassesAlone limits m) → Remembered order →
    order.seenConversationMessage = true →
    (Accepted limits index order messages ↔ Resumes order.pendingToolCallIds messages)
  | [], index, order, _, hremembered, _ => by
    rw [accepted_nil, show order.pendingToolCallMessage = none ↔ _ from hremembered]
    constructor
    · intro hnone
      rw [hnone]
      exact resumes_nil.2 .nil
    · rintro ⟨answers, rest, heq, hanswers, -⟩
      obtain ⟨rfl, -⟩ := List.append_eq_nil_iff.1 heq.symm
      simpa using hanswers.2
  | m :: messages, index, order, halone, hremembered, hseen => by
    have hrest : ∀ m ∈ messages, PassesAlone limits m :=
      fun m hm => halone m (List.mem_cons_of_mem _ hm)
    rw [accepted_cons (halone m (List.mem_cons_self ..))]
    unfold validateChatMessageOrder
    cases hrole : m.role with
    | system =>
      rw [resumes_cons_of_role (by rw [hrole]; decide)]
      constructor
      · rintro ⟨order', h, -⟩
        rw [hseen] at h
        cases h
      · rintro ⟨-, hturns⟩
        cases hturns with
        | user h _ | assistant h _ _ | calls h _ _ _ _ =>
          rw [hrole] at h
          cases h
    | user =>
      rw [resumes_cons_of_role (by rw [hrole]; decide)]
      have hkept : Remembered { order with seenConversationMessage := true } := hremembered
      constructor
      · rintro ⟨order', h, haccepted⟩
        obtain ⟨_, hpending, hout⟩ := bind_eq_ok.1 h
        obtain rfl := pure_eq_ok.1 hout
        have hnil := rejectPending_ok.1 hpending
        have ih := (accepted_iff_resumes hrest hkept rfl).1 haccepted
        refine ⟨hnil, .user hrole (resumes_nil.1 ?_)⟩
        rwa [show order.pendingToolCallIds = [] from hnil] at ih
      · rintro ⟨hnil, hturns⟩
        refine ⟨{ order with seenConversationMessage := true }, ?_,
          (accepted_iff_resumes hrest hkept rfl).2 ?_⟩
        · rw [rejectPending_ok.2 hnil]
          rfl
        · rw [show order.pendingToolCallIds = [] from hnil, resumes_nil]
          cases hturns with
          | user _ hturns => exact hturns
          | assistant h _ _ | calls h _ _ _ _ =>
            rw [hrole] at h
            cases h
    | assistant =>
      rw [resumes_cons_of_role (by rw [hrole]; decide), turns_cons_assistant hrole]
      have hkept : ∀ ids : List Str,
          Remembered ⟨true, ids, if ids.isEmpty then none else some index⟩ := by
        intro ids
        unfold Remembered
        cases ids with
        | nil => simp
        | cons id ids => simp
      constructor
      · rintro ⟨order', h, haccepted⟩
        obtain ⟨_, hpending, h⟩ := bind_eq_ok.1 h
        obtain ⟨ids, hids, hout⟩ := bind_eq_ok.1 h
        obtain rfl := pure_eq_ok.1 hout
        obtain ⟨rfl, hnodup⟩ := (insertToolCallIds_ok_iff List.nodup_nil).1 hids
        exact ⟨rejectPending_ok.1 hpending, hnodup,
          (accepted_iff_resumes hrest (hkept _) rfl).1 haccepted⟩
      · rintro ⟨hnil, hnodup, hresumes⟩
        have hids : insertToolCallIds index 0 m.toolCalls [] = .ok (m.toolCalls.map (·.id)) :=
          (insertToolCallIds_ok_iff List.nodup_nil).2 ⟨rfl, hnodup⟩
        refine ⟨_, ?_, (accepted_iff_resumes hrest (hkept _) rfl).2 hresumes⟩
        rw [rejectPending_ok.2 hnil, ok_bind, hids]
        rfl
    | tool =>
      rw [resumes_cons_tool hrole]
      have hkept : ∀ id : Str, id ∈ order.pendingToolCallIds → Remembered
          ⟨true, order.pendingToolCallIds.erase id,
            if (order.pendingToolCallIds.erase id).isEmpty then none
            else order.pendingToolCallMessage⟩ := by
        intro id hid
        have hsome : order.pendingToolCallMessage ≠ none := by
          intro hnone
          rw [hremembered.1 hnone] at hid
          cases hid
        unfold Remembered
        cases order.pendingToolCallIds.erase id with
        | nil => simp
        | cons a ids => simpa using hsome
      cases hid : m.toolCallId with
      | none =>
        constructor
        · rintro ⟨order', h, -⟩
          cases h
        · rintro ⟨id, h, -⟩
          cases h
      | some id =>
        dsimp only
        by_cases hmem : id ∈ order.pendingToolCallIds
        · have hne : order.pendingToolCallIds.isEmpty ≠ true := by
            rw [Ne, List.isEmpty_iff]
            rintro hnil
            rw [hnil] at hmem
            cases hmem
          have hcontains : (!order.pendingToolCallIds.contains id) ≠ true := by
            rw [List.contains_iff_mem.2 hmem]
            exact Bool.false_ne_true
          rw [if_neg hne, if_neg hcontains]
          constructor
          · rintro ⟨order', h, haccepted⟩
            obtain rfl := Except.ok.inj h
            exact ⟨id, rfl, hmem, (accepted_iff_resumes hrest (hkept id hmem) rfl).1 haccepted⟩
          · rintro ⟨id', h, -, hresumes⟩
            obtain rfl := Option.some.inj h
            exact ⟨_, rfl, (accepted_iff_resumes hrest (hkept id hmem) rfl).2 hresumes⟩
        · constructor
          · rintro ⟨order', h, -⟩
            split at h
            · cases h
            · split at h
              · cases h
              · next hcontains => exact absurd (List.contains_iff_mem.1 (by simpa using hcontains)) hmem
          · rintro ⟨id', h, hin, -⟩
            obtain rfl := Option.some.inj h
            exact absurd hin hmem

/-- Only a system message does not begin the conversation. -/
theorem validateChatMessageOrder_seen (hrole : m.role ≠ .system) (b : Bool) :
    validateChatMessageOrder index m { order with seenConversationMessage := b } =
      validateChatMessageOrder index m order := by
  unfold validateChatMessageOrder
  cases hr : m.role with
  | system => exact absurd hr hrole
  | user => rfl
  | assistant => rfl
  | tool => rfl

/-- Before the conversation has begun, system messages are accepted too. -/
theorem accepted_iff_conversation : ∀ {messages : List ChatMessage} {index : ℕ},
    (∀ m ∈ messages, PassesAlone limits m) →
    (Accepted limits index ⟨false, [], none⟩ messages ↔ Conversation messages)
  | [], index, _ => by
    rw [accepted_nil]
    exact ⟨fun _ => ⟨[], [], rfl, nofun, .nil⟩, fun _ => rfl⟩
  | m :: messages, index, halone => by
    have hrest : ∀ m ∈ messages, PassesAlone limits m :=
      fun m hm => halone m (List.mem_cons_of_mem _ hm)
    by_cases hrole : m.role = .system
    · have horder : validateChatMessageOrder index m ⟨false, [], none⟩ = .ok ⟨false, [], none⟩ := by
        unfold validateChatMessageOrder
        rw [hrole]
        rfl
      rw [accepted_cons (halone m (List.mem_cons_self ..)), horder]
      constructor
      · rintro ⟨order', h, haccepted⟩
        obtain rfl := Except.ok.inj h
        obtain ⟨systems, rest, rfl, hsystems, hturns⟩ :=
          (accepted_iff_conversation hrest).1 haccepted
        refine ⟨m :: systems, rest, rfl, fun a ha => ?_, hturns⟩
        rcases List.mem_cons.1 ha with rfl | ha
        · exact hrole
        · exact hsystems a ha
      · rintro ⟨systems, rest, heq, hsystems, hturns⟩
        refine ⟨_, rfl, (accepted_iff_conversation hrest).2 ?_⟩
        cases systems with
        | nil =>
          rw [List.nil_append] at heq
          rw [← heq] at hturns
          cases hturns with
          | user h _ | assistant h _ _ | calls h _ _ _ _ =>
            rw [hrole] at h
            cases h
        | cons a systems =>
          obtain ⟨rfl, rfl⟩ := List.cons.inj heq
          exact ⟨systems, rest, rfl, fun a ha => hsystems a (List.mem_cons_of_mem _ ha), hturns⟩
    · have hbegun : Accepted limits index ⟨false, [], none⟩ (m :: messages) ↔
          Accepted limits index ⟨true, [], none⟩ (m :: messages) := by
        rw [accepted_cons (halone m (List.mem_cons_self ..)),
          accepted_cons (halone m (List.mem_cons_self ..)),
          ← validateChatMessageOrder_seen hrole true]
      rw [hbegun, accepted_iff_resumes halone ⟨fun _ => rfl, fun _ => rfl⟩ rfl, resumes_nil]
      constructor
      · exact fun hturns => ⟨[], m :: messages, rfl, nofun, hturns⟩
      · rintro ⟨systems, rest, heq, hsystems, hturns⟩
        cases systems with
        | nil =>
          rw [List.nil_append] at heq
          exact heq ▸ hturns
        | cons a systems =>
          obtain ⟨rfl, -⟩ := List.cons.inj heq
          exact absurd (hsystems _ (List.mem_cons_self ..)) hrole

/-- **The order of messages.** Messages that pass every check for themselves are accepted just
if they are a conversation. -/
theorem validateChatMessages_iff_conversation {messages : List ChatMessage}
    (halone : ∀ m ∈ messages, PassesAlone limits m) :
    validateChatMessages messages limits = .ok () ↔ Conversation messages := by
  rw [← @accepted_iff_conversation limits messages 0 halone]
  constructor
  · intro h
    obtain ⟨order, horder, hpending⟩ := bind_eq_ok.1 h
    refine ⟨order, horder, ?_⟩
    cases hmessage : order.pendingToolCallMessage with
    | none => rfl
    | some index =>
      rw [hmessage] at hpending
      cases hpending
  · rintro ⟨order, horder, hnone⟩
    rw [validateChatMessages, horder, ok_bind, hnone]

end Pass

def sampleCall (id : String) : ToolCall Json :=
  ⟨id.toList, .function, ⟨"read_file".toList, .object []⟩⟩

/-- Two calls of the assistant, answered the other way round. -/
def sampleConversation : List ChatMessage :=
  [⟨.system, some "Be short.".toList, none, none, []⟩,
    ⟨.user, some "Compare a and b.".toList, none, none, []⟩,
    ⟨.assistant, none, none, none, [sampleCall "a", sampleCall "b"]⟩,
    ⟨.tool, some "B".toList, none, some "b".toList, []⟩,
    ⟨.tool, some "A".toList, none, some "a".toList, []⟩,
    ⟨.assistant, some "They differ.".toList, none, none, []⟩]

theorem sampleConversation_accepted :
    validateChatMessages sampleConversation RequestLimits.default = .ok () := by
  refine (validateChatMessages_iff_conversation fun m hm => ?_).2 ?_
  · simp only [sampleConversation, List.mem_cons, List.not_mem_nil, or_false] at hm
    rcases hm with rfl | rfl | rfl | rfl | rfl | rfl <;> exact ⟨0, rfl⟩
  · refine ⟨[_], _, rfl, fun m hm => by rw [List.mem_singleton.1 hm], .user rfl ?_⟩
    refine @Turns.calls _ [_, _] _ rfl (List.cons_ne_nil _ _) (by decide) ⟨?_, ?_⟩
      (.assistant rfl rfl .nil)
    · exact fun m hm => by
        rcases List.mem_cons.1 hm with rfl | hm
        · rfl
        · rw [List.mem_singleton.1 hm]
    · exact .swap _ _ []

end KirAi.Api

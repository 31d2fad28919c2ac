import Ferrin.Prompt.Convert

/-!
What the check of a prompt reports. It reads the converted messages, where tool
messages in a row have become one; what is missing is said here of the history
itself (`Missing`), and the check reports just that (`missing_results_exact`).
-/
namespace Ferrin.Prompt
open List
open Result (bind_ok each_left each_right mapM_ok)

/-! ### What is missing -/

def speaks : Message → Bool
  | .User .. | .System .. => true
  | _ => false

def Calls (id : ToolCallId) : Message → Prop
  | .Assistant content _ =>
    ∃ call, .ToolCall call ∈ content.as_parts ∧ call.provider_executed = false ∧ call.tool_call_id = id
  | _ => False

def Answers (id : ToolCallId) : Message → Prop
  | .Tool content _ => ∃ result, .ToolResult result ∈ content ∧ result.tool_call_id = id
  | _ => False

/-- A call before the place has no result up to it, and nobody spoke in between. -/
def OpenAt (messages : List Message) (place : Nat) (id : ToolCallId) : Prop :=
  ∃ i message, i < place ∧ messages[i]? = some message ∧ Calls id message ∧
    ∀ j later, i < j → j < place → messages[j]? = some later → speaks later = false ∧ ¬ Answers id later

/-- The places of the check: the messages of a user or the system, and the end. -/
def Checked (messages : List Message) (place : Nat) : Prop :=
  place = messages.length ∨ ∃ message, messages[place]? = some message ∧ speaks message = true

def requests (messages : List Message) : List ToolApprovalRequest :=
  messages.flatMap fun
    | .Assistant content _ => content.as_parts.filterMap (·.as_tool_approval_request)
    | _ => []

def responses (messages : List Message) : List ToolApprovalResponse :=
  messages.flatMap fun
    | .Tool content _ => content.filterMap (·.as_tool_approval_response)
    | _ => []

def Excused (messages : List Message) (id : ToolCallId) : Prop :=
  ∃ response ∈ responses messages, ∃ before request after, requests messages = before ++ request :: after ∧
    request.approval_id = response.approval_id ∧ request.tool_call_id = id ∧
    ∀ later ∈ after, later.approval_id ≠ response.approval_id

def Missing (messages : List Message) (place : Nat) (id : ToolCallId) : Prop :=
  Checked messages place ∧ OpenAt messages place id ∧ ¬ Excused messages id

theorem approval_calls_eq (messages : List Message) : approval_calls messages =
    Assoc.collect ((requests messages).map fun request => (request.approval_id,request.tool_call_id)) := by
  rw [Assoc.collect,foldl_map]
  rfl

variable {id : ToolCallId}

theorem lookup_last {entries : List ToolApprovalRequest} {approval_id : ApprovalId} :
    (Assoc.collect (entries.map fun request => (request.approval_id,request.tool_call_id))).lookup approval_id = some id ↔
      ∃ before request after, entries = before ++ request :: after ∧ request.approval_id = approval_id ∧
        request.tool_call_id = id ∧ ∀ later ∈ after, later.approval_id ≠ approval_id := by
  induction entries using reverseRecOn with
  | nil => simp [Assoc.collect]
  | append_singleton earlier last ih =>
    rw [map_append,map_singleton,Assoc.collect_append,Assoc.lookup_put]
    constructor
    · intro found
      split_ifs at found with same
      · exact ⟨earlier,last,[],rfl,same.symm,by simpa using found,by simp⟩
      · obtain ⟨before,request,after,rfl,named,call,none_later⟩ := ih.mp found
        refine ⟨before,request,after ++ [last],by simp,named,call,fun later mem => ?_⟩
        rcases List.mem_append.mp mem with inside | isLast
        · exact none_later later inside
        · rw [List.mem_singleton.mp isLast]
          exact fun equal => same equal.symm
    · rintro ⟨before,request,after,split,named,call,none_later⟩
      rcases eq_nil_or_concat after with rfl | ⟨after,_,rfl⟩
      · obtain ⟨rfl,only⟩ := append_inj' split rfl
        cases only
        rw [if_pos named.symm,call]
      · rw [concat_eq_append] at split none_later
        rw [← cons_append,← append_assoc] at split
        obtain ⟨rfl,only⟩ := append_inj' split rfl
        cases only
        rw [if_neg fun equal => none_later last (by simp) equal.symm]
        exact ih.mpr ⟨before,request,after,rfl,named,call,fun later mem => none_later later (by simp [mem])⟩

theorem mem_exempt {messages : List Message} : id ∈ exempt messages ↔ Excused messages id := by
  show id ∈ (responses messages).filterMap _ ↔ _
  simp only [mem_filterMap,approval_calls_eq,lookup_last,Excused]

section
variable {ctx : ConvertContext} {messages : List Message} {call_id : ToolCallId}

variable {place : Nat} {original : Message} {pending excused : List ToolCallId}

theorem openAt_succ {message : Message} (here : messages[place]? = some message) :
    OpenAt messages (place + 1) call_id ↔
      Calls call_id message ∨ OpenAt messages place call_id ∧ speaks message = false ∧ ¬ Answers call_id message := by
  constructor
  · rintro ⟨i,caller,before,found,calls,quiet⟩
    rcases Nat.lt_succ_iff_lt_or_eq.mp before with earlier | rfl
    · refine .inr ⟨⟨i,caller,earlier,found,calls,fun j later after below => ?_⟩,
        quiet place message earlier (Nat.lt_succ_self _) here⟩
      exact quiet j later after (Nat.lt_succ_of_lt below)
    · rw [here] at found
      cases found
      exact .inl calls
  · rintro (calls | ⟨⟨i,caller,earlier,found,calls,quiet⟩,silent,unanswered⟩)
    · exact ⟨place,message,Nat.lt_succ_self _,here,calls,fun j later after below => by omega⟩
    · refine ⟨i,caller,Nat.lt_succ_of_lt earlier,found,calls,fun j later after below present => ?_⟩
      rcases Nat.lt_succ_iff_lt_or_eq.mp below with inside | rfl
      · exact quiet j later after inside present
      · rw [here] at present
        cases present
        exact ⟨silent,unanswered⟩

theorem converted_call_part {part : AssistantPart} {done : Option AssistantPromptPart}
    (given : convert_assistant_part ctx original part = .ok done) (call : ToolCallPart) :
    done = some (.ToolCall call) ↔ part = .ToolCall call := by
  cases part with
  | ToolCall => cases given; simp
  | Text =>
    cases given
    split_ifs <;> simp
  | File other | ToolResult other =>
    obtain ⟨_,_,last⟩ := bind_ok.mp given
    cases last
    simp
  | ReasoningFile =>
    obtain ⟨⟨data,_⟩,_,last⟩ := bind_ok.mp given
    cases data <;> cases last <;> simp
  | _ => cases given; simp

theorem converted_call {content : AssistantContent} {options : Option ProviderOptions}
    {done : PromptMessage} (given : convert_assistant ctx content options original = .ok done) (call : ToolCallPart) :
    ∃ parts, done = .Assistant parts options ∧ (.ToolCall call ∈ parts ↔ .ToolCall call ∈ content.as_parts) := by
  cases content with
  | Text =>
    cases given
    exact ⟨_,rfl,by simp [AssistantContent.as_parts]⟩
  | Parts =>
    obtain ⟨_,each,last⟩ := bind_ok.mp given
    cases last
    have each := mapM_ok.mp each
    refine ⟨_,rfl,?_⟩
    simp only [mem_filterMap,id,exists_eq_right,AssistantContent.as_parts]
    constructor
    · intro mem
      obtain ⟨_,present,same⟩ := each_right each mem
      exact (converted_call_part same call).mp rfl ▸ present
    · intro mem
      obtain ⟨_,present,same⟩ := each_left each mem
      exact (converted_call_part same call).mpr rfl ▸ present

theorem converted_result_part {part : ToolPart} {done : Option ToolPromptPart}
    (given : convert_tool_part ctx part = .ok done) :
    (∃ result, done = some (.ToolResult result) ∧ result.tool_call_id = call_id) ↔
      ∃ result, part = .ToolResult result ∧ result.tool_call_id = call_id := by
  cases part with
  | ToolResult =>
    obtain ⟨_,converted,last⟩ := bind_ok.mp given
    obtain ⟨_,_,same⟩ := bind_ok.mp converted
    cases last
    cases same
    simp
  | ToolApprovalResponse =>
    cases given
    split_ifs <;> simp

theorem converted_result {content : List ToolPart} {options : Option ProviderOptions} {done : PromptMessage}
    (given : convert_tool ctx content options = .ok done) :
    ∃ parts, done = .Tool parts options ∧ ((∃ result, .ToolResult result ∈ parts ∧ result.tool_call_id = call_id) ↔
      Answers call_id (.Tool content options)) := by
  obtain ⟨_,each,last⟩ := bind_ok.mp given
  cases last
  have each := mapM_ok.mp each
  refine ⟨_,rfl,?_⟩
  simp only [mem_filterMap,id,exists_eq_right,Answers]
  constructor
  · rintro ⟨result,mem,answers⟩
    obtain ⟨_,present,same⟩ := each_right each mem
    obtain ⟨result,rfl,answers⟩ := (converted_result_part same).mp ⟨result,rfl,answers⟩
    exact ⟨result,present,answers⟩
  · rintro ⟨result,mem,answers⟩
    obtain ⟨_,present,same⟩ := each_left each mem
    obtain ⟨result,rfl,answers⟩ := (converted_result_part same).mpr ⟨result,rfl,answers⟩
    exact ⟨result,present,answers⟩

theorem mem_pending_assistant_iff {content : List AssistantPromptPart} {options : Option ProviderOptions} :
    ∀ {pending : List ToolCallId}, call_id ∈ pending_after pending (.Assistant content options) ↔ call_id ∈ pending ∨
      ∃ call, .ToolCall call ∈ content ∧ call.provider_executed = false ∧ call.tool_call_id = call_id := by
  induction content with
  | nil => intro pending; simp [pending_after]
  | cons part rest ih =>
    intro pending
    have later : call_id ∈ pending_after pending (.Assistant (part :: rest) options) ↔
        call_id ∈ pending_after (open_call pending part) (.Assistant rest options) := Iff.rfl
    rw [later,ih]
    cases part with
    | ToolCall =>
      simp only [open_call]
      split_ifs with skipped
      · grind
      · grind
    | _ => simp [open_call]

theorem mem_pending_tool_iff {content : List ToolPromptPart} {options : Option ProviderOptions} :
    ∀ {pending : List ToolCallId}, call_id ∈ pending_after pending (.Tool content options) ↔ call_id ∈ pending ∧
      ¬ ∃ result, .ToolResult result ∈ content ∧ result.tool_call_id = call_id := by
  induction content with
  | nil => intro pending; simp [pending_after]
  | cons part rest ih =>
    intro pending
    have later : call_id ∈ pending_after pending (.Tool (part :: rest) options) ↔
        call_id ∈ pending_after (answer_call pending part) (.Tool rest options) := Iff.rfl
    rw [later,ih]
    cases part with
    | ToolResult =>
      simp only [answer_call,mem_filter,decide_eq_true_eq]
      grind
    | ToolApprovalResponse => simp [answer_call]

theorem pending_after_nodup (once : pending.Nodup) (message : PromptMessage) :
    (pending_after pending message).Nodup := by
  cases message with
  | Assistant content =>
    refine foldlRecOn content open_call once fun pending once part _ => ?_
    cases part with
    | ToolCall call =>
      simp only [open_call]
      split_ifs with skipped
      · exact once
      · have fresh : call.tool_call_id ∉ pending := (not_or.mp skipped).2
        refine List.nodup_append.mpr ⟨once,by simp,fun id mem other last => ?_⟩
        rw [List.mem_singleton.mp last]
        exact fun same => fresh (same ▸ mem)
    | _ => exact once
  | Tool content =>
    refine foldlRecOn content answer_call once fun pending once part _ => ?_
    cases part with
    | ToolResult => exact once.filter _
    | ToolApprovalResponse => exact once
  | _ => exact once

/-- What a check of a history from a place on says. -/
def Reported (messages : List Message) (start : Nat) : Except Error Unit → Prop
  | .ok () => ∀ place, start ≤ place → ∀ id, ¬ Missing messages place id
  | .error error => ∃ place named, start ≤ place ∧ named ≠ [] ∧ named.Nodup ∧
      (∀ id, id ∈ named ↔ Missing messages place id) ∧
      (∀ earlier, start ≤ earlier → earlier < place → ∀ id, ¬ Missing messages earlier id) ∧
      error = .InvalidPrompt ("missing tool results for calls: " ++ String.intercalate ", " named)

theorem required_reported (once : pending.Nodup)
    (opened : ∀ id, id ∈ pending ↔ OpenAt messages place id) (checked : Checked messages place)
    {rest : Except Error Unit} (passed : pending.filter (· ∉ exempt messages) = [] → Reported messages (place + 1) rest) :
    Reported messages place (do require_tool_results (pending.filter (· ∉ exempt messages)); rest) := by
  have named : ∀ id, id ∈ pending.filter (· ∉ exempt messages) ↔ Missing messages place id := by
    intro id
    simp only [mem_filter,opened,decide_eq_true_eq,mem_exempt,Missing]
    exact ⟨fun ⟨isOpen,kept⟩ => ⟨checked,isOpen,kept⟩,fun ⟨_,isOpen,kept⟩ => ⟨isOpen,kept⟩⟩
  by_cases none_open : pending.filter (· ∉ exempt messages) = []
  · have nothing : ∀ id, ¬ Missing messages place id := fun id => by rw [← named,none_open]; simp
    have later := passed none_open
    rw [none_open]
    cases rest with
    | ok =>
      intro other above id
      rcases Nat.eq_or_lt_of_le above with rfl | beyond
      · exact nothing id
      · exact later other beyond id
    | error =>
      obtain ⟨first,calls,above,some_,nodup,exact_,before,text⟩ := later
      refine ⟨first,calls,Nat.le_of_succ_le above,some_,nodup,exact_,fun earlier from_ below => ?_,text⟩
      rcases Nat.eq_or_lt_of_le from_ with rfl | beyond
      · exact nothing
      · exact before earlier beyond below
  · rw [require_tool_results,if_neg none_open]
    exact ⟨place,_,Nat.le_refl _,none_open,once.filter _,named,fun earlier from_ below => by omega,rfl⟩

theorem Reported.skip {result : Except Error Unit} (later : Reported messages (place + 1) result)
    (unchecked : ¬ Checked messages place) : Reported messages place result := by
  cases result with
  | ok =>
    intro other above id missing
    rcases Nat.eq_or_lt_of_le above with rfl | beyond
    · exact unchecked missing.1
    · exact later other beyond id missing
  | error =>
    obtain ⟨first,calls,above,some_,nodup,exact_,before,text⟩ := later
    refine ⟨first,calls,Nat.le_of_succ_le above,some_,nodup,exact_,fun earlier from_ below id missing => ?_,text⟩
    rcases Nat.eq_or_lt_of_le from_ with rfl | beyond
    · exact unchecked missing.1
    · exact before earlier beyond below id missing

theorem check_reported {rest : List Message} {converted : Prompt}
    (each : List.Forall₂ (fun message done => convert_message ctx message = .ok done) rest converted) :
    ∀ {before : List Message} {pending : List ToolCallId}, messages = before ++ rest → pending.Nodup →
      (∀ id, id ∈ pending ↔ OpenAt messages before.length id) →
      Reported messages before.length (check_pending (exempt messages) pending converted) := by
  induction each with
  | nil =>
    intro before pending whole once opened
    have last : before.length = messages.length := by simp [whole]
    have nothing : Reported messages (before.length + 1) (.ok ()) := by
      rintro _ _ id ⟨rfl | ⟨message,here,_⟩,_⟩
      · omega
      · have := (List.getElem?_eq_some_iff.mp here).1
        omega
    have ended := required_reported once opened (.inl last) fun _ => nothing
    cases required : require_tool_results (pending.filter (· ∉ exempt messages)) with
    | ok => rw [required] at ended; rw [check_pending,required]; exact ended
    | error => rw [required] at ended; rw [check_pending,required]; exact ended
  | @cons message done rest converted first others ih =>
    intro before pending whole once opened
    have here : messages[before.length]? = some message := by simp [whole]
    have following {left : List ToolCallId} (once : left.Nodup)
        (opened : ∀ id, id ∈ left ↔ OpenAt messages (before.length + 1) id) :
        Reported messages (before.length + 1) (check_pending (exempt messages) left converted) := by
      have reported := @ih (before ++ [message]) left (by simp [whole]) once
      rw [length_append,length_singleton] at reported
      exact reported opened
    have silent (quiet : speaks message = false) : ¬ Checked messages before.length := by
      rintro (last | ⟨_,found,loud⟩)
      · simp [whole] at last
      · rw [here] at found
        cases found
        rw [quiet] at loud
        cases loud
    have heard (loud : speaks message = true) (uncalled : ∀ id, ¬ Calls id message) : Reported messages before.length (do
        require_tool_results (pending.filter (· ∉ exempt messages))
        check_pending (exempt messages) (pending.filter (· ∉ exempt messages)) converted) := by
      refine required_reported once opened (.inr ⟨message,here,loud⟩) fun none_open => ?_
      rw [none_open]
      refine following nodup_nil fun id => ?_
      rw [openAt_succ here]
      simp [uncalled,loud]
    cases message with
    | System =>
      cases first
      exact heard rfl fun _ => id
    | User content options =>
      obtain ⟨parts,rfl⟩ : ∃ parts, done = .User parts options := by
        cases content with
        | Text => cases first; exact ⟨_,rfl⟩
        | Parts =>
          obtain ⟨kept,_,last⟩ := bind_ok.mp first
          cases last
          exact ⟨_,rfl⟩
      exact heard rfl fun _ => id
    | Assistant content options =>
      have calls := converted_call first
      obtain ⟨parts,rfl,_⟩ := calls ⟨"","",.null,false,none⟩
      refine Reported.skip (following (pending_after_nodup once _) fun id => ?_) (silent rfl)
      have same : (∃ call, .ToolCall call ∈ parts ∧ call.provider_executed = false ∧ call.tool_call_id = id) ↔
          Calls id (.Assistant content options) := by
        refine exists_congr fun call => and_congr_left fun _ => ?_
        obtain ⟨_,same,kept⟩ := calls call
        cases same
        exact kept
      rw [openAt_succ here,mem_pending_assistant_iff,opened,same]
      simp [speaks,Answers,or_comm]
    | Tool content options =>
      have results (id : ToolCallId) := @converted_result ctx id content options done first
      obtain ⟨_,rfl,_⟩ := results ""
      refine Reported.skip (following (pending_after_nodup once _) fun id => ?_) (silent rfl)
      obtain ⟨_,same,kept⟩ := results id
      cases same
      rw [openAt_succ here,mem_pending_tool_iff,opened,kept]
      simp [speaks,Calls]

/-! ### The merged tool messages -/

theorem check_pending_prefix {first second : Prompt}
    (same : ∀ pending, check_pending excused pending first = check_pending excused pending second) (before : Prompt) :
    ∀ pending, check_pending excused pending (before ++ first) = check_pending excused pending (before ++ second) := by
  induction before with
  | nil => exact same
  | cons message _ ih =>
    intro pending
    cases message <;> simp only [cons_append,check_pending,ih]

theorem answer_attached (options : ProviderOptions) (part : ToolPromptPart) (pending : List ToolCallId) :
    answer_call pending (attach_options ctx options part) = answer_call pending part := by
  cases part <;> rfl

theorem check_append_message (prompt : Prompt) (message : PromptMessage) (rest : Prompt)
    (pending : List ToolCallId) : check_pending excused pending (append_message ctx prompt message ++ rest) =
      check_pending excused pending (prompt ++ message :: rest) := by
  have plain : check_pending excused pending (prompt ++ [message] ++ rest) =
      check_pending excused pending (prompt ++ message :: rest) := by simp
  unfold append_message
  cases message with
  | Tool content options =>
    dsimp only
    split
    case h_1 previous previous_options last =>
      obtain ⟨before,rfl⟩ : ∃ before, prompt = before ++ [.Tool previous previous_options] :=
        ⟨prompt.dropLast,(dropLast_append_getLast? _ last).symm⟩
      rw [dropLast_concat,append_assoc,append_assoc]
      refine check_pending_prefix (fun pending => ?_) before pending
      show check_pending excused (foldl answer_call pending (_ ++ content)) rest =
        check_pending excused (content.foldl answer_call (previous.foldl answer_call pending)) rest
      rw [foldl_append]
      congr 2
      split
      case h_1 part options isLast =>
        obtain ⟨front,rfl⟩ : ∃ front, previous = front ++ [part] :=
          ⟨previous.dropLast,(dropLast_append_getLast? _ isLast).symm⟩
        simp [foldl_append,answer_attached]
      case h_2 => rfl
    case h_2 => exact plain
  | _ => exact plain

theorem check_merged (converted : Prompt) : ∀ (prompt : Prompt) (pending : List ToolCallId),
    check_pending excused pending (converted.foldl (append_message ctx) prompt) =
      check_pending excused pending (prompt ++ converted) := by
  induction converted with
  | nil => intro prompt pending; simp
  | cons _ _ ih =>
    intro prompt pending
    rw [foldl_cons,ih,check_append_message]

theorem check_instructions (system : List (String × Option ProviderOptions)) (rest : Prompt) :
    check_pending excused [] (system.map (fun message => .System message.1 message.2) ++ rest) =
      check_pending excused [] rest := by
  induction system with
  | nil => rfl
  | cons _ _ ih => exact ih

theorem validate_reported {system : List (String × Option ProviderOptions)} {converted : Prompt}
    (parts : messages.mapM (convert_message ctx) = .ok converted) : Reported messages 0 (validate_tool_results
      (converted.foldl (append_message ctx) (system.map fun message => .System message.1 message.2)) messages) := by
  rw [validate_tool_results,check_merged,check_instructions]
  refine @check_reported ctx messages messages converted (mapM_ok.mp parts) [] [] rfl .nil fun id => ?_
  simp [OpenAt]

end

/-- For a history that converts part by part: the conversion fails just where a call is missing its result, and the
    error names the calls missing at the first such place, each once. -/
theorem missing_results_exact (ctx : ConvertContext) (system : List (String × Option ProviderOptions))
    (messages : List Message) {converted : Prompt} (parts : messages.mapM (convert_message ctx) = .ok converted) :
    ((∃ error, convert_to_prompt ctx (system.map fun message => .System message.1 message.2) messages = .error error) ↔
      ∃ place id, Missing messages place id) ∧
    ∀ error, convert_to_prompt ctx (system.map fun message => .System message.1 message.2) messages = .error error →
      ∃ place named, named ≠ [] ∧ named.Nodup ∧ (∀ id, id ∈ named ↔ Missing messages place id) ∧
        (∀ earlier < place, ∀ id, ¬ Missing messages earlier id) ∧
        error = .InvalidPrompt ("missing tool results for calls: " ++ String.intercalate ", " named) := by
  have reported := @validate_reported ctx messages system converted parts
  have whole : convert_to_prompt ctx (system.map fun message => .System message.1 message.2) messages = (do
      validate_tool_results (converted.foldl (append_message ctx) (system.map fun message => .System message.1 message.2)) messages
      return (converted.foldl (append_message ctx) (system.map fun message => .System message.1 message.2)).filter
        (!is_empty_tool ·)) := by
    unfold convert_to_prompt convert_messages
    rw [parts]
    rfl
  rw [whole]
  cases checked : validate_tool_results
      (converted.foldl (append_message ctx) (system.map fun message => .System message.1 message.2)) messages with
  | ok _ =>
    rw [checked] at reported
    refine ⟨⟨fun ⟨_,failed⟩ => (nomatch failed),fun ⟨place,id,missing⟩ => ?_⟩,fun _ failed => (nomatch failed)⟩
    exact absurd missing (reported place (Nat.zero_le _) id)
  | error error =>
    rw [checked] at reported
    obtain ⟨place,named,_,some_,once,exact_,before,text⟩ := reported
    refine ⟨⟨fun _ => ?_,fun _ => ⟨error,rfl⟩⟩,?_⟩
    · obtain ⟨id,member⟩ := exists_mem_of_ne_nil named some_
      exact ⟨place,id,(exact_ id).mp member⟩
    · rintro _ ⟨⟩
      exact ⟨place,named,some_,once,exact_,fun earlier below => before earlier (Nat.zero_le _) below,text⟩

/-- A call without a result, where its turn ends: `c` is answered, `d` is not. -/
def unanswered : List Message :=
  [.assistant_parts [.ToolCall ⟨"c","search",.null,false,none⟩,.ToolCall ⟨"d","search",.null,false,none⟩],
    .tool [.ToolResult ⟨"c","search",.text "found",none⟩],.User (.Text "next") none]

/-- A conversion of histories without files. -/
def plainContext : ConvertContext where
  convert_user_part _ := .error (.InvalidPrompt "unsupported user message part")
  file_data _ original := .error (.MessageConversion "unsupported file source" original)
  convert_output output := .ok output
  merge_provider_options base _ := base

theorem missing_results_exact_unanswered :
    convert_to_prompt plainContext [] unanswered = .error (.InvalidPrompt "missing tool results for calls: d") ∧
      ∃ place id, Missing unanswered place id := by
  have failed : convert_to_prompt plainContext [] unanswered =
      .error (.InvalidPrompt "missing tool results for calls: d") := by decide
  exact ⟨failed,(missing_results_exact plainContext [] unanswered rfl).1.mp ⟨_,failed⟩⟩

end Ferrin.Prompt

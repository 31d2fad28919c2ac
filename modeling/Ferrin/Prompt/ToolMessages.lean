import Ferrin.Middleware.MergeOptions
import Ferrin.Prompt.Convert
import Mathlib.Data.List.Chain

/-!
Tool messages in a row become one. Each is meant to keep its options to its own
last part (`told`), but options are pushed down only when the next message is
merged, and by then the last part may be one of an earlier message. The merged
prompt is the meant one just where that changes no part (`tool_messages_apart`).
-/
namespace Ferrin.Prompt
open List
open Result (bind_ok mapM_ok)

/-! ### The meant prompt -/

def is_tool : PromptMessage → Bool
  | .Tool .. => true
  | _ => false

def push (ctx : ConvertContext) (part : ToolPromptPart) : Option ProviderOptions → ToolPromptPart
  | none => part
  | some options => attach_options ctx options part

def push_last (ctx : ConvertContext) (options : Option ProviderOptions) (content : List ToolPromptPart) :
    List ToolPromptPart :=
  match content.getLast? with
  | none => content
  | some part => content.dropLast ++ [push ctx part options]

def tell (ctx : ConvertContext) (message : PromptMessage) (rest : Prompt) : PromptMessage :=
  match message with
  | .Tool content options => if rest.head?.any is_tool then .Tool (push_last ctx options content) none else message
  | _ => message

def told (ctx : ConvertContext) : Prompt → Prompt
  | [] => []
  | message :: rest => tell ctx message rest :: told ctx rest

def join (message : PromptMessage) (rest : Prompt) : Prompt :=
  match message,rest with
  | .Tool content _, .Tool next options :: rest => .Tool (content ++ next) options :: rest
  | _, _ => message :: rest

def meant (ctx : ConvertContext) (converted : Prompt) : Prompt := (told ctx converted).foldr join []

/-- The options of the tool messages without a part that follow directly, but of the one that ends the row. -/
def emptied_options : Prompt → List (Option ProviderOptions)
  | [] => []
  | message :: rest =>
    match message with
    | .Tool [] options => if rest.head?.any is_tool then options :: emptied_options rest else []
    | _ => []

def Undisturbed (ctx : ConvertContext) (converted : Prompt) : Prop :=
  ∀ before front part options rest, converted = before ++ .Tool (front ++ [part]) options :: rest →
    (emptied_options rest).foldl (push ctx) (push ctx part options) = push ctx part options

def gather (ctx : ConvertContext) (message : PromptMessage) (rest : Prompt) : Prompt :=
  rest.foldl (append_message ctx) [message]

section
variable {ctx : ConvertContext}

variable (options : Option ProviderOptions)

variable (front : List ToolPromptPart)

variable (part : ToolPromptPart)

theorem push_last_concat :
    push_last ctx options (front ++ [part]) = front ++ [push ctx part options] := by
  simp [push_last]

@[simp] theorem push_last_nil : push_last ctx options [] = [] := rfl

theorem append_tools (before : Prompt) (previous content : List ToolPromptPart) (options later : Option ProviderOptions) :
    append_message ctx (before ++ [.Tool previous options]) (.Tool content later) =
      before ++ [.Tool (push_last ctx options previous ++ content) later] := by
  rcases eq_nil_or_concat previous with rfl | ⟨_,_,rfl⟩
  · simp [append_message,push_last]
  · cases options <;> simp [append_message,push_last,push]

theorem append_two (previous content : List ToolPromptPart) (options later : Option ProviderOptions) :
    append_message ctx [.Tool previous options] (.Tool content later) =
      [.Tool (push_last ctx options previous ++ content) later] := append_tools [] previous content options later

theorem append_apart {prompt : Prompt} {message : PromptMessage}
    (apart : is_tool message = false ∨ ∀ last ∈ prompt.getLast?, is_tool last = false) :
    append_message ctx prompt message = prompt ++ [message] := by
  unfold append_message
  cases message with
  | Tool =>
    dsimp only
    split
    case h_1 previous _ last =>
      rcases apart with apart | apart
      · cases apart
      · exact absurd (apart _ last) (by simp [is_tool])
    case h_2 => rfl
  | _ => rfl

theorem append_behind (before : Prompt) (last message : PromptMessage) :
    append_message ctx (before ++ [last]) message = before ++ append_message ctx [last] message := by
  by_cases tools : is_tool last = true ∧ is_tool message = true
  · cases last <;> cases message <;> simp [is_tool] at tools
    rw [append_tools,append_two]
  · have apart : is_tool message = false ∨ is_tool last = false := by
      cases here : is_tool message
      · exact .inl rfl
      · exact .inr (by simpa [here] using tools)
    rw [append_apart (by simpa using apart),append_apart (by simpa using apart),append_assoc]

variable (rest : Prompt)

theorem foldl_behind : ∀ (before : Prompt) (last : PromptMessage),
    rest.foldl (append_message ctx) (before ++ [last]) = before ++ gather ctx last rest := by
  induction rest with
  | nil => intro before last; rfl
  | cons message _ ih =>
    intro before last
    rw [foldl_cons,append_behind,gather,foldl_cons]
    by_cases tools : is_tool last = true ∧ is_tool message = true
    · cases last <;> cases message <;> simp [is_tool] at tools
      rw [append_two,ih]
      rfl
    · have apart : is_tool message = false ∨ is_tool last = false := by
        cases here : is_tool message
        · exact .inl rfl
        · exact .inr (by simpa [here] using tools)
      rw [append_apart (by simpa using apart),← append_assoc,ih,ih,append_assoc]

theorem gather_tools (content next : List ToolPromptPart) (options later : Option ProviderOptions) (rest : Prompt) :
    gather ctx (.Tool content options) (.Tool next later :: rest) =
      gather ctx (.Tool (push_last ctx options content ++ next) later) rest := by
  rw [gather,foldl_cons,append_two]
  rfl

theorem gather_apart {message next : PromptMessage} (apart : is_tool next = false ∨ is_tool message = false)
    (rest : Prompt) : gather ctx message (next :: rest) = message :: gather ctx next rest := by
  rw [gather,foldl_cons,append_apart (by simpa using apart)]
  exact foldl_behind rest [message] next

def lead (content : List ToolPromptPart) (row : Prompt) : Prompt := join (.Tool content none) row

@[simp] theorem lead_tool (content next : List ToolPromptPart) (options : Option ProviderOptions) (rest : Prompt) :
    lead content (.Tool next options :: rest) = .Tool (content ++ next) options :: rest := rfl

def built_part (ctx : ConvertContext) (part : ToolPromptPart) (options : Option ProviderOptions) (rest : Prompt) :
    ToolPromptPart :=
  if rest.head?.any is_tool then (emptied_options rest).foldl (push ctx) (push ctx part options) else part

def meant_part (ctx : ConvertContext) (part : ToolPromptPart) (options : Option ProviderOptions) (rest : Prompt) :
    ToolPromptPart :=
  if rest.head?.any is_tool then push ctx part options else part

theorem gather_head : ∀ (content : List ToolPromptPart) (options : Option ProviderOptions),
    ∃ front last after, gather ctx (.Tool content options) rest = .Tool front last :: after := by
  induction rest with
  | nil => intro content options; exact ⟨_,_,_,rfl⟩
  | cons message _ ih =>
    intro content options
    cases message with
    | Tool =>
      rw [gather_tools]
      exact ih _ _
    | _ => exact ⟨_,_,_,gather_apart (.inl rfl) _⟩

theorem lead_lead (first second : List ToolPromptPart) (content : List ToolPromptPart) (options : Option ProviderOptions)
    (rest : Prompt) : lead first (lead second (gather ctx (.Tool content options) rest)) =
      lead (first ++ second) (gather ctx (.Tool content options) rest) := by
  obtain ⟨_,_,_,row⟩ := @gather_head ctx rest content options
  simp [row]

theorem built_part_emptied (options later : Option ProviderOptions) (rest : Prompt) :
    built_part ctx part options (.Tool [] later :: rest) = built_part ctx (push ctx part options) later rest := by
  by_cases tool : rest.head?.any is_tool = true
  · simp [built_part,emptied_options,tool,is_tool]
  · simp [built_part,emptied_options,tool,is_tool]

theorem built_part_next {next : List ToolPromptPart} (some_ : next ≠ []) (part : ToolPromptPart)
    (options later : Option ProviderOptions) (rest : Prompt) :
    built_part ctx part options (.Tool next later :: rest) = push ctx part options := by
  cases next with
  | nil => exact absurd rfl some_
  | cons => rfl

theorem gather_part : ∀ (front : List ToolPromptPart) (part : ToolPromptPart) (options : Option ProviderOptions),
    gather ctx (.Tool (front ++ [part]) options) rest =
      lead (front ++ [built_part ctx part options rest]) (gather ctx (.Tool [] options) rest) := by
  induction rest with
  | nil => intro front part options; simp [gather,built_part]
  | cons message _ ih =>
    intro front part options
    cases message with
    | Tool next =>
      rw [gather_tools,gather_tools,push_last_concat,push_last_nil,nil_append]
      rcases eq_nil_or_concat next with rfl | ⟨middle,_,rfl⟩
      · rw [append_nil,ih,built_part_emptied]
      · rw [concat_eq_append,← append_assoc,ih,ih middle,lead_lead,built_part_next (by simp)]
        simp
    | _ =>
      rw [gather_apart (.inl rfl),gather_apart (.inl rfl)]
      simp [built_part,is_tool]

variable (message : PromptMessage)

theorem meant_cons (rest : Prompt) :
    meant ctx (message :: rest) = join (tell ctx message rest) (meant ctx rest) := rfl

theorem join_apart {rest : Prompt} (ends : rest.head?.any is_tool = false) :
    join message rest = message :: rest := by
  unfold join
  split
  · simp [is_tool] at ends
  · rfl

theorem meant_head : ((meant ctx rest).head?.any is_tool) = rest.head?.any is_tool := by
  cases rest with
  | nil => rfl
  | cons message =>
    rw [meant_cons]
    cases message with
    | Tool =>
      simp only [tell]
      split_ifs
      · unfold join; split <;> simp_all [is_tool]
      · unfold join; split <;> simp_all [is_tool]
    | _ => rfl

theorem meant_last {rest : Prompt} (ends : rest.head?.any is_tool = false) (content : List ToolPromptPart)
    (options : Option ProviderOptions) : meant ctx (.Tool content options :: rest) = .Tool content options :: meant ctx rest := by
  rw [meant_cons,tell,if_neg (by simp [ends]),join_apart _ ((meant_head rest).trans ends)]

theorem meant_emptied {rest : Prompt} (goes : rest.head?.any is_tool = true) (options : Option ProviderOptions) :
    meant ctx (.Tool [] options :: rest) = meant ctx rest := by
  have tool := (@meant_head ctx rest).trans goes
  rw [meant_cons,tell,if_pos goes]
  cases row : meant ctx rest with
  | nil => simp [row] at tool
  | cons first =>
    cases first with
    | Tool => rfl
    | _ => simp [row,is_tool] at tool

theorem meant_tool_head (content : List ToolPromptPart) (options : Option ProviderOptions) (rest : Prompt) :
    ∃ front last after, meant ctx (.Tool content options :: rest) = .Tool front last :: after := by
  have tool := @meant_head ctx (.Tool content options :: rest)
  cases row : meant ctx (.Tool content options :: rest) with
  | nil => simp [row,is_tool] at tool
  | cons first =>
    cases first with
    | Tool => exact ⟨_,_,_,rfl⟩
    | _ => simp [row,is_tool] at tool

theorem meant_part_eq (options : Option ProviderOptions) (rest : Prompt) :
    meant ctx (.Tool (front ++ [part]) options :: rest) =
      lead (front ++ [meant_part ctx part options rest]) (meant ctx (.Tool [] options :: rest)) := by
  cases goes : rest.head?.any is_tool with
  | false => rw [meant_last goes,meant_last goes,meant_part,if_neg (by simp [goes])]; simp
  | true =>
    rw [meant_emptied goes,meant_cons,tell,if_pos goes,push_last_concat,meant_part,if_pos goes]
    rfl

/-! ### Where the built prompt is the meant one -/

theorem lead_inj {first second : ToolPromptPart} {row other : Prompt}
    (tool : ∃ content options rest, row = .Tool content options :: rest)
    (tool' : ∃ content options rest, other = .Tool content options :: rest) :
    lead (front ++ [first]) row = lead (front ++ [second]) other ↔ first = second ∧ row = other := by
  obtain ⟨_,_,_,rfl⟩ := tool
  obtain ⟨_,_,_,rfl⟩ := tool'
  simp only [lead_tool,List.cons.injEq,PromptMessage.Tool.injEq,append_assoc,append_cancel_left_eq,
    singleton_append]
  tauto

theorem undisturbed_cons {message : PromptMessage} {rest : Prompt} : Undisturbed ctx (message :: rest) ↔
    (∀ front part options, message = .Tool (front ++ [part]) options →
      built_part ctx part options rest = meant_part ctx part options rest) ∧ Undisturbed ctx rest := by
  have one (part : ToolPromptPart) (options : Option ProviderOptions) :
      built_part ctx part options rest = meant_part ctx part options rest ↔
        (emptied_options rest).foldl (push ctx) (push ctx part options) = push ctx part options := by
    rw [built_part,meant_part]
    split_ifs with goes
    · exact Iff.rfl
    · have nothing : emptied_options rest = [] := by
        cases rest with
        | nil => rfl
        | cons next => cases next <;> simp_all [emptied_options,is_tool]
      simp [nothing]
  simp only [one]
  constructor
  · intro undisturbed
    refine ⟨fun front part options here => undisturbed [] front part options rest (by rw [here]; rfl),?_⟩
    rintro before front part options after rfl
    exact undisturbed (message :: before) front part options after rfl
  · rintro ⟨first,others⟩ before front part options after whole
    cases before with
    | nil => cases whole; exact first front part options rfl
    | cons _ before => cases whole; exact others before front part options after rfl

theorem gather_meant_iff : ∀ message, gather ctx message rest = meant ctx (message :: rest) ↔
    Undisturbed ctx (message :: rest) := by
  induction rest with
  | nil =>
    intro message
    have same : gather ctx message [] = meant ctx [message] := by cases message <;> rfl
    refine iff_of_true same (undisturbed_cons.mpr ⟨fun front part options here => rfl,?_⟩)
    intro before front part options after whole
    simp at whole
  | cons next rest ih =>
    -- the options of a message without parts concern no part before it
    have emptied (options : Option ProviderOptions) : gather ctx (.Tool [] options) (next :: rest) =
        meant ctx (.Tool [] options :: next :: rest) ↔ Undisturbed ctx (next :: rest) := by
      by_cases tool : is_tool next = true
      · rw [meant_emptied (by simpa using tool),← ih next]
        cases next <;> simp [is_tool] at tool
        rw [gather_tools,push_last_nil,nil_append]
      · rw [gather_apart (.inl (by simpa using tool)),meant_last (by simpa using tool),← ih next]
        simp
    intro message
    rw [undisturbed_cons]
    cases message with
    | Tool content options =>
      rcases eq_nil_or_concat content with rfl | ⟨front,part,rfl⟩
      · rw [emptied]
        exact ⟨fun undisturbed => ⟨by simp,undisturbed⟩,And.right⟩
      · rw [concat_eq_append,gather_part,meant_part_eq,lead_inj front (gather_head _ _ _) (meant_tool_head _ _ _),emptied]
        refine and_congr_left fun _ => ⟨fun same front' part' options' here => ?_,fun all => all front part options rfl⟩
        obtain ⟨sameContent,rfl⟩ : front ++ [part] = front' ++ [part'] ∧ options = options' := by simpa using here
        obtain ⟨rfl,last⟩ := append_inj' sameContent rfl
        cases last
        exact same
    | _ =>
      rw [gather_apart (.inr rfl),meant_cons]
      simp [tell,join,ih]

def bare : ToolPromptPart → ToolPromptPart
  | .ToolResult part => .ToolResult { part with provider_options := none }
  | .ToolApprovalResponse part => .ToolApprovalResponse { part with provider_options := none }

def bareMessage : PromptMessage → PromptMessage
  | .Tool content options => .Tool (content.map bare) options
  | message => message

def tool_parts (prompt : Prompt) : List ToolPromptPart :=
  prompt.flatMap fun
    | .Tool content _ => content
    | _ => []

theorem bare_push (options : Option ProviderOptions) : bare (push ctx part options) = bare part := by
  cases options with
  | none => rfl
  | some => cases part <;> rfl

theorem bare_pushes (options : List (Option ProviderOptions)) : ∀ part : ToolPromptPart,
    bare (options.foldl (push ctx) part) = bare part := by
  induction options with
  | nil => intro part; rfl
  | cons _ _ ih => intro part; rw [foldl_cons,ih,bare_push]

theorem bare_built_part (options : Option ProviderOptions) (rest : Prompt) :
    bare (built_part ctx part options rest) = bare part := by
  rw [built_part]
  split_ifs
  · rw [bare_pushes,bare_push]
  · rfl

theorem bare_push_last (content : List ToolPromptPart) :
    (push_last ctx options content).map bare = content.map bare := by
  rcases eq_nil_or_concat content with rfl | ⟨_,_,rfl⟩
  · rfl
  · rw [concat_eq_append,push_last_concat]
    simp [bare_push]

theorem bare_join (rest : Prompt) :
    (join message rest).map bareMessage = join (bareMessage message) (rest.map bareMessage) := by
  cases message with
  | Tool =>
    cases rest with
    | nil => rfl
    | cons first =>
      cases first with
      | Tool => simp [join,bareMessage]
      | _ => rfl
  | _ => rfl

theorem bare_gather : ∀ message,
    (gather ctx message rest).map bareMessage = (meant ctx (message :: rest)).map bareMessage := by
  induction rest with
  | nil => intro message; cases message <;> rfl
  | cons next rest ih =>
    have emptied (options : Option ProviderOptions) : (gather ctx (.Tool [] options) (next :: rest)).map bareMessage =
        (meant ctx (.Tool [] options :: next :: rest)).map bareMessage := by
      by_cases tool : is_tool next = true
      · rw [meant_emptied (by simpa using tool),← ih next]
        cases next <;> simp [is_tool] at tool
        rw [gather_tools,push_last_nil,nil_append]
      · rw [gather_apart (.inl (by simpa using tool)),meant_last (by simpa using tool),map_cons,map_cons,ih next]
    intro message
    cases message with
    | Tool content options =>
      rcases eq_nil_or_concat content with rfl | ⟨_,_,rfl⟩
      · exact emptied options
      · rw [concat_eq_append,gather_part,meant_part_eq,lead,lead,bare_join,bare_join,emptied]
        simp only [bareMessage,map_append,map_singleton,bare_built_part]
        rw [meant_part]
        split_ifs
        · rw [bare_push]
        · rfl
    | _ =>
      rw [gather_apart (.inr rfl),meant_cons]
      simp [tell,join,ih]

theorem tool_parts_bare (prompt : Prompt) : (tool_parts prompt).map bare = tool_parts (prompt.map bareMessage) := by
  induction prompt with
  | nil => rfl
  | cons message _ ih =>
    cases message <;> simpa [tool_parts,bareMessage] using ih

theorem tool_parts_join (rest : Prompt) :
    tool_parts (join message rest) = tool_parts (message :: rest) := by
  unfold join
  split
  · simp [tool_parts]
  · rfl

theorem tool_parts_meant (converted : Prompt) : (tool_parts (meant ctx converted)).map bare = (tool_parts converted).map bare := by
  induction converted with
  | nil => rfl
  | cons message _ ih =>
    have split (first : PromptMessage) (others : Prompt) : tool_parts (first :: others) = tool_parts [first] ++ tool_parts others := by
      simp [tool_parts]
    rw [meant_cons,tool_parts_join,split,split message,map_append,map_append,ih]
    congr 1
    cases message with
    | Tool content options =>
      simp only [tell]
      split_ifs
      · simpa [tool_parts] using bare_push_last options content
      · rfl
    | _ => rfl

theorem tool_parts_gather (rest : Prompt) :
    (tool_parts (gather ctx message rest)).map bare = (tool_parts (message :: rest)).map bare := by
  rw [tool_parts_bare,bare_gather,← tool_parts_bare,tool_parts_meant]

theorem tool_parts_filter (prompt : Prompt) : tool_parts (prompt.filter (!is_empty_tool ·)) = tool_parts prompt := by
  induction prompt with
  | nil => rfl
  | cons message _ ih =>
    rw [filter_cons]
    split_ifs with filled
    · simp only [tool_parts,flatMap_cons] at ih ⊢
      rw [ih]
    · cases message with
      | Tool content =>
        cases content with
        | nil => simpa [tool_parts] using ih
        | cons => simp [is_empty_tool] at filled
      | _ => simp [is_empty_tool] at filled

/-- Messages that differ in the options of parts only and are equal once emptied ones are gone are equal. -/
theorem eq_of_filtered : ∀ {first second : Prompt}, first.map bareMessage = second.map bareMessage →
    first.filter (!is_empty_tool ·) = second.filter (!is_empty_tool ·) → first = second
  | [],[],_,_ => rfl
  | [],_ :: _,same,_ => by simp at same
  | _ :: _,[],same,_ => by simp at same
  | a :: rest,b :: others,same,filtered => by
    obtain ⟨same,later⟩ := List.cons.inj same
    have empties : is_empty_tool a = is_empty_tool b ∧ (is_empty_tool a = true → a = b) := by
      cases a <;> cases b <;> simp_all [bareMessage,is_empty_tool]
      rename_i content _ content' _
      cases content <;> cases content' <;> simp_all
    rw [filter_cons,filter_cons,← empties.1] at filtered
    split_ifs at filtered with filled
    · obtain ⟨here,kept⟩ := List.cons.inj filtered
      rw [here,eq_of_filtered later kept]
    · rw [empties.2 (by simpa using filled),eq_of_filtered later filtered]

def Apart (first second : PromptMessage) : Prop := is_tool first = false ∨ is_tool second = false

theorem gather_first : ∀ message, ∃ first after, gather ctx message rest = first :: after ∧
    is_tool first = is_tool message := by
  induction rest with
  | nil => intro message; exact ⟨_,_,rfl,rfl⟩
  | cons next _ ih =>
    intro message
    by_cases tools : is_tool message = true ∧ is_tool next = true
    · cases message <;> cases next <;> simp [is_tool] at tools
      rw [gather_tools]
      exact ih _
    · exact ⟨message,_,gather_apart (by grind) _,rfl⟩

theorem gather_chain : ∀ message, (gather ctx message rest).IsChain Apart := by
  induction rest with
  | nil => intro message; exact .singleton _
  | cons next rest ih =>
    intro message
    by_cases tools : is_tool message = true ∧ is_tool next = true
    · cases message <;> cases next <;> simp [is_tool] at tools
      rw [gather_tools]
      exact ih _
    · obtain ⟨_,_,row,_⟩ := @gather_first ctx rest next
      rw [gather_apart (by grind),row]
      refine .cons_cons ?_ (row ▸ ih next)
      unfold Apart
      grind

theorem filter_chain : ∀ {prompt : Prompt}, prompt.IsChain Apart → (prompt.filter (!is_empty_tool ·)).IsChain Apart
  | [],_ => .nil
  | [message],_ => by
    rw [List.filter_cons]
    split_ifs
    · exact .singleton _
    · exact .nil
  | first :: second :: rest,chain => by
    obtain ⟨apart,later⟩ := List.isChain_cons_cons.mp chain
    have others := filter_chain later
    rw [filter_cons]
    split_ifs with kept
    · refine List.isChain_cons.mpr ⟨fun next here => ?_,others⟩
      rw [filter_cons] at here
      split_ifs at here with also
      · cases here
        exact apart
      · -- the second goes: it was a tool message, so that the first is none
        refine .inl (apart.resolve_right ?_)
        cases second <;> simp_all [is_empty_tool,is_tool]
    · exact others

/-! ### The parts of the history -/

def handed_on : ToolPart → Bool
  | .ToolResult _ => true
  | .ToolApprovalResponse response => response.provider_executed

def handed_parts (messages : List Message) : List ToolPart :=
  messages.flatMap fun
    | .Tool content _ => content.filter handed_on
    | _ => []

def Same (ctx : ConvertContext) : ToolPart → ToolPromptPart → Prop
  | .ToolResult part, .ToolResult done => done.tool_call_id = part.tool_call_id ∧ done.tool_name = part.tool_name ∧
      ctx.convert_output part.output = .ok done.output
  | .ToolApprovalResponse part, .ToolApprovalResponse done =>
    done.approval_id = part.approval_id ∧ done.approved = part.approved ∧ done.reason = part.reason
  | _, _ => False

theorem same_bare (part : ToolPart) (done : ToolPromptPart) : Same ctx part (bare done) ↔ Same ctx part done := by
  cases part <;> cases done <;> rfl

theorem convert_tool_same {content : List ToolPart} {options : Option ProviderOptions} {done : PromptMessage}
    (given : convert_tool ctx content options = .ok done) :
    ∃ parts, done = .Tool parts options ∧ List.Forall₂ (Same ctx) (content.filter handed_on) parts := by
  obtain ⟨converted,traversed,last⟩ := bind_ok.mp given
  cases last
  refine ⟨_,rfl,?_⟩
  have each := mapM_ok.mp traversed
  clear given traversed
  induction each with
  | nil => exact .nil
  | @cons part done content converted first _ ih =>
    cases part with
    | ToolResult =>
      obtain ⟨_,result_,last⟩ := bind_ok.mp first
      obtain ⟨_,done_,same⟩ := bind_ok.mp result_
      cases last
      cases same
      exact .cons ⟨rfl,rfl,done_⟩ ih
    | ToolApprovalResponse response =>
      cases first
      split_ifs with hosted
      · rw [filter_cons,if_pos (show handed_on (.ToolApprovalResponse response) = true from hosted)]
        exact .cons ⟨rfl,rfl,rfl⟩ ih
      · rw [filter_cons,if_neg (show ¬ handed_on (.ToolApprovalResponse response) = true from hosted)]
        exact ih

theorem converted_same {messages : List Message} {converted : Prompt}
    (each : List.Forall₂ (fun message done => convert_message ctx message = .ok done) messages converted) :
    List.Forall₂ (Same ctx) (handed_parts messages) (tool_parts converted) := by
  induction each with
  | nil => exact .nil
  | @cons message done messages converted first _ ih =>
    unfold handed_parts tool_parts
    rw [flatMap_cons,flatMap_cons]
    refine rel_append ?_ ih
    cases message with
    | System => cases first; exact .nil
    | User content =>
      cases content with
      | Text => cases first; exact .nil
      | Parts =>
        obtain ⟨_,_,last⟩ := bind_ok.mp first
        cases last
        exact .nil
    | Assistant content =>
      cases content with
      | Text => cases first; exact .nil
      | Parts =>
        obtain ⟨_,_,last⟩ := bind_ok.mp first
        cases last
        exact .nil
    | Tool =>
      obtain ⟨_,rfl,same⟩ := convert_tool_same first
      exact same

theorem same_of_bare {parts : List ToolPart} {first second : List ToolPromptPart} (each : List.Forall₂ (Same ctx) parts second)
    (same : first.map bare = second.map bare) : List.Forall₂ (Same ctx) parts first := by
  have bared (done : List ToolPromptPart) : List.Forall₂ (Same ctx) parts (done.map bare) ↔ List.Forall₂ (Same ctx) parts done := by
    rw [forall₂_map_right_iff]
    simp only [same_bare]
  rw [← bared,same,bared]
  exact each

end

def mergeContext (convert_user_part : UserPart → Except Error UserPromptPart)
    (file_data : FileSource → Message → Except Error (FileData × Option MediaType))
    (convert_output : ToolResultOutput → Except Error ToolResultOutput) : ConvertContext :=
  ⟨convert_user_part,file_data,convert_output,merge_provider_options⟩

structure KeptApart (ctx : ConvertContext) (system : Prompt) (messages : List Message) (converted prompt : Prompt) : Prop where
  merged : prompt.IsChain Apart
  filled : ∀ message ∈ prompt, is_empty_tool message = false
  parts : List.Forall₂ (Same ctx) (handed_parts messages) (tool_parts prompt)
  options : prompt = (system ++ meant ctx converted).filter (!is_empty_tool ·)
  /-- The options of a part win over those of its message. -/
  winning : ∀ (outer own : ProviderOptions), outer.DeepKeyed → own.DeepKeyed → ∀ (provider : String) (path : List String)
    (value : JsonValue), (∀ key ∈ provider :: path, key ∉ reserved_keys) → value.as_object = none →
    own.optionAt provider path = some value → (ctx.merge_provider_options outer own).optionAt provider path = some value

section
variable {ctx : ConvertContext}

theorem foldl_system {system : Prompt} (silent : ∀ message ∈ system, is_tool message = false) (converted : Prompt) :
    converted.foldl (append_message ctx) system = system ++ match converted with
      | [] => []
      | message :: rest => gather ctx message rest := by
  cases converted with
  | nil => simp
  | cons =>
    have apart : ∀ last ∈ system.getLast?, is_tool last = false := fun last here => silent last (mem_of_getLast? here)
    rw [foldl_cons,append_apart (.inr apart),foldl_behind]

theorem tool_parts_system {system : Prompt} (silent : ∀ message ∈ system, is_tool message = false) (rest : Prompt) :
    tool_parts (system ++ rest) = tool_parts rest := by
  induction system with
  | nil => rfl
  | cons message _ ih =>
    obtain ⟨first,silent⟩ := List.forall_mem_cons.mp silent
    have later := ih silent
    cases message with
    | Tool => cases first
    | _ => exact later

theorem chain_system {system : Prompt} (silent : ∀ message ∈ system, is_tool message = false) {rest : Prompt}
    (chain : rest.IsChain Apart) : (system ++ rest).IsChain Apart := by
  induction system with
  | nil => exact chain
  | cons _ _ ih =>
    obtain ⟨first,silent⟩ := List.forall_mem_cons.mp silent
    exact (ih silent).cons fun _ _ => .inl first

end

def resultOf (id : ToolCallId) : ToolPart := .ToolResult ⟨id,"search",.text "found",none⟩

def cached : ProviderOptions := [("anthropic",[("cacheControl",.string "ephemeral")])]

def callsOf (ids : List ToolCallId) : Message :=
  .assistant_parts (ids.map fun id => .ToolCall ⟨id,"search",.null,false,none⟩)

/-- The second message answers an approval of the client, and has no part left. -/
def emptiedBetween : List Message :=
  [callsOf ["a","b"],.tool [resultOf "a"],.Tool [.ToolApprovalResponse ⟨"x",true,none,false⟩] (some cached),
    .tool [resultOf "b"]]

def cachedFirst : List Message := [callsOf ["a","b"],.Tool [resultOf "a"] (some cached),.tool [resultOf "b"]]

def textContext : ConvertContext :=
  mergeContext (fun _ => .error (.InvalidPrompt "unsupported user message part"))
    (fun _ original => .error (.MessageConversion "unsupported file source" original)) .ok

end Ferrin.Prompt

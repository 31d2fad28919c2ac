import Ferrin.Google.Output
import Ferrin.Google.StreamContract
import Ferrin.StreamText.Accumulate

/-!
Complete and streamed responses of `generateContent`. The stream keeps a text
open while calls and code pass by, and shows the function calls of a chunk after
its other parts; it adds up to the complete response exactly if neither makes a
difference (`google_complete_streamed_agree`).
-/
namespace Ferrin.Google
open Ferrin.Stream Ferrin.StreamText Ferrin.Gathering List Payload GoogleStreamState
open Accumulation (after_append)
open OutputMapper (id_or_generated map_part map_parts sources)

/-! ### Parts with one payload -/

def Payload.whole (config : Config) : Payload → Prop
  | .Text text => text ≠ ""
  | .FunctionCall call => call.name.isSome ∧ (∃ id, call.id = some id ∧ id ≠ "") ∧ call.is_streaming_fragment = false
  | .InlineData inline => ∃ bytes, config.decode_base64 inline.data = .ok bytes
  | .ExecutableCode code => code.code.isSome
  | .CodeExecutionResult _ | .ToolCall _ | .ToolResponse _ => True

def Part.Single (config : Config) (part : Part) : Prop :=
  ∃ payload : Payload, part = payload.part part.thought part.thought_signature ∧ payload.whole config

def Part.shape (part : Part) : Shape Kind :=
  if part.text.isSome then .run (if part.thought = some true then .reasoning else .text)
  else if part.inline_data.isSome then .wall
  else if part.function_call.isSome then .call
  else .aside

def Part.InPieces (part : Part) (pieces : List Part) : Prop :=
  pieces = [part] ∨ part.text.isSome ∧
    (∀ piece ∈ pieces, (piece.thought = some true ↔ part.thought = some true) ∧
      ∃ text, text ≠ "" ∧ piece = (Payload.Text text).part piece.thought piece.thought_signature) ∧
    String.join (pieces.map fun piece => piece.text.getD "") = part.text.getD "" ∧
    pieces.foldl (fun signature piece => piece.thought_signature.or signature) none = part.thought_signature

def GenerateContentResponse.parts (value : GenerateContentResponse) : List Part :=
  (value.candidate.bind (·.parts)).getD []

def GenerateContentResponse.Unsourced (config : Config) (value : GenerateContentResponse) : Prop :=
  ∀ candidate ∈ value.candidate, candidate.grounding_chunks config = []

section
variable {config : Config} {m n : OutputMapper} {part : Part} {c : Content}

def Part.Becomes (config : Config) (m : OutputMapper) (part : Part) (c : Content) (n : OutputMapper) : Prop :=
  ∃ payload : Payload, part = payload.part part.thought part.thought_signature ∧ payload.whole config ∧
    payload.content config m part.thought part.thought_signature = .ok (n,c)

theorem Payload.shows_of_whole {payload : Payload} (whole : payload.whole config) : payload.shows := by
  cases payload with
  | Text => exact whole
  | FunctionCall => exact whole.1
  | _ => trivial

theorem Part.Single.becomes (single : part.Single config) (m : OutputMapper) : ∃ c n, part.Becomes config m c n := by
  obtain ⟨payload,is,whole⟩ := single
  suffices ∃ mapped, payload.content config m part.thought part.thought_signature = .ok mapped by
    obtain ⟨⟨n,c⟩,mapped⟩ := this
    exact ⟨c,n,payload,is,whole,mapped⟩
  cases payload with
  | InlineData =>
    obtain ⟨_,decoded⟩ := whole
    rw [content,inline_file,decoded]
    exact ⟨_,rfl⟩
  | _ => exact ⟨_,rfl⟩

theorem Part.Becomes.map_part (becomes : part.Becomes config m c n) (content : List Content) :
    map_part config (m,content) part = .ok (n,content ++ [c]) := by
  obtain ⟨_,is,whole,mapped⟩ := becomes
  rw [is,map_part_payload (shows_of_whole whole),mapped]
  rfl

theorem Part.Becomes.shape (becomes : part.Becomes config m c n) : part.shape = contentShape c := by
  obtain ⟨payload,is,whole,mapped⟩ := becomes
  rw [is]
  generalize part.thought = thought,part.thought_signature = signature at mapped
  cases payload with
  | Text =>
    cases mapped
    by_cases thinks : thought = some true <;> simp [Part.shape,Payload.part,contentShape,thinks]
  | InlineData =>
    obtain ⟨_,decoded⟩ := whole
    rw [content,inline_file,decoded] at mapped
    cases mapped
    by_cases thinks : thought = some true <;> simp [Part.shape,Payload.part,contentShape,thinks]
  | _ => cases mapped; rfl

theorem Part.Becomes.of_call (becomes : part.Becomes config m c n) (isCall : part.shape = .call) :
    n = m ∧ ∀ k, part.Becomes config k c k := by
  obtain ⟨payload,is,whole,mapped⟩ := becomes
  cases payload with
  | FunctionCall call =>
    obtain ⟨id,carries,nonempty⟩ := whole.2.1
    have known (k : OutputMapper) : id_or_generated k config call.id = (k,id) := by
      rw [id_or_generated,carries,Option.filter_some,if_pos (by simpa using nonempty)]
    have same (k : OutputMapper) : (Payload.FunctionCall call).content config k part.thought part.thought_signature =
        .ok (k,.ToolCall ((m.function_call config call.id (call.name.getD "") call.args part.thought_signature).2)) := by
      simp [content,OutputMapper.function_call,known]
    have here := mapped.symm.trans (same m)
    cases here
    exact ⟨rfl,fun k => ⟨_,is,whole,same k⟩⟩
  | Text text | InlineData inline | ExecutableCode code | CodeExecutionResult result | ToolCall call | ToolResponse response =>
    rw [is] at isCall
    simp [Part.shape,Payload.part] at isCall

inductive Maps (config : Config) : OutputMapper → List Part → List Content → OutputMapper → Prop where
  | done (m : OutputMapper) : Maps config m [] [] m
  | next {m n k : OutputMapper} {part : Part} {c : Content} {rest : List Part} {content : List Content}
      (becomes : part.Becomes config m c n) (later : Maps config n rest content k) :
      Maps config m (part :: rest) (c :: content) k

variable {parts first second pieces : List Part} {content : List Content} {k : OutputMapper}
  {chunks : List (GenerateContentResponse × JsonValue)}

theorem Maps.map_parts (maps : Maps config m parts content n) :
    ∀ before, parts.foldlM (map_part config) (m,before) = .ok (n,before ++ content) := by
  induction maps with
  | done => intro before; rw [append_nil]; rfl
  | next becomes _ ih =>
    intro before
    rw [foldlM_cons,becomes.map_part]
    exact (ih _).trans (by rw [append_assoc]; rfl)

theorem maps_of_single (single : ∀ part ∈ parts, part.Single config) :
    ∀ m, ∃ content n, Maps config m parts content n := by
  induction parts with
  | nil => exact fun m => ⟨[],m,.done m⟩
  | cons part _ ih =>
    intro m
    obtain ⟨c,n,becomes⟩ := (single part (by simp)).becomes m
    obtain ⟨content,k,later⟩ := ih (fun other mem => single other (by simp [mem])) n
    exact ⟨c :: content,k,.next becomes later⟩

theorem Maps.append {more : List Content}
    (maps : Maps config m first content n) (later : Maps config n second more k) :
    Maps config m (first ++ second) (content ++ more) k := by
  induction maps with
  | done => exact later
  | next becomes _ ih => exact .next becomes (ih later)

theorem Maps.split : ∀ {m : OutputMapper} {content : List Content},
    Maps config m (first ++ second) content n → ∃ before after k, content = before ++ after ∧
      Maps config m first before k ∧ Maps config k second after n := by
  induction first with
  | nil => exact fun maps => ⟨[],_,_,rfl,.done _,maps⟩
  | cons _ _ ih =>
    rintro m _ (_ | ⟨becomes,later⟩)
    obtain ⟨before,after,k,rfl,here,there⟩ := ih later
    exact ⟨_ :: before,after,k,rfl,.next becomes here,there⟩

theorem Maps.shapes (maps : Maps config m parts content n) : parts.map Part.shape = content.map contentShape := by
  induction maps with
  | done => rfl
  | next becomes _ ih => rw [map_cons,map_cons,becomes.shape,ih]

def piecesContent (config : Config) (kind : Kind) (piece : Part) : Content :=
  kind.said (piece.text.getD "") (signature_metadata config piece.thought_signature)

theorem signature_metadata_or (later earlier : Option String) :
    (signature_metadata config later).or (signature_metadata config earlier) = signature_metadata config (later.or earlier) := by
  cases later <;> rfl

theorem joined_pieces (kind : Kind) (pieces : List Part) : ∀ (text : String) (signature : Option String),
    (pieces.map (piecesContent config kind)).foldl continued (kind.said text (signature_metadata config signature)) =
      kind.said (text ++ String.join (pieces.map fun piece => piece.text.getD ""))
        (signature_metadata config (pieces.foldl (fun signature piece => piece.thought_signature.or signature) signature)) := by
  induction pieces with
  | nil => intro text signature; simp [String.join_nil]
  | cons _ _ ih =>
    intro text signature
    rw [map_cons,foldl_cons,piecesContent,continued_said,signature_metadata_or,ih,map_cons,String.join_cons,
      foldl_cons,String.append_assoc]

theorem maps_pieces {kind : Kind} (texts : ∀ piece ∈ pieces, (piece.thought = some true ↔ kind = .reasoning) ∧
      ∃ text, text ≠ "" ∧ piece = (Payload.Text text).part piece.thought piece.thought_signature) (m : OutputMapper) :
    Maps config m pieces (pieces.map (piecesContent config kind)) m := by
  induction pieces with
  | nil => exact .done m
  | cons piece _ ih =>
    obtain ⟨⟨thinks,text,nonempty,is⟩,others⟩ := List.forall_mem_cons.mp texts
    refine .next ⟨.Text text,is,nonempty,?_⟩ (ih others)
    have said : piece.text = some text := by rw [is]; rfl
    rw [piecesContent,said,content]
    cases kind with
    | text => rw [if_neg (by simp [thinks])]; rfl
    | reasoning => rw [if_pos (thinks.mpr rfl)]; rfl

theorem Part.InPieces.maps (of : part.InPieces pieces) (becomes : part.Becomes config m c n) :
    ∃ content, Maps config m pieces content n ∧ Pieces contentShape continued c content := by
  rcases of with rfl | ⟨isText,texts,joined,signed⟩
  · exact ⟨[c],.next becomes (.done n),.inl rfl⟩
  · obtain ⟨payload,is,whole,mapped⟩ := becomes
    cases payload with
    | Text text =>
      have said : part.text = some text := by rw [is]; rfl
      let kind : Kind := if part.thought = some true then .reasoning else .text
      have thinks : part.thought = some true ↔ kind = .reasoning := by
        by_cases thought : part.thought = some true <;> simp [kind,thought]
      have told : c = kind.said text (signature_metadata config part.thought_signature) ∧ n = m := by
        cases mapped
        by_cases thought : part.thought = some true <;> simp [kind,thought,Kind.said]
      obtain ⟨rfl,rfl⟩ := told
      refine ⟨pieces.map (piecesContent config kind),
        maps_pieces (fun piece mem => ⟨(texts piece mem).1.trans thinks,(texts piece mem).2⟩) n,.inr ⟨kind,?_⟩⟩
      cases pieces with
      | nil =>
        rw [said] at joined
        exact absurd joined.symm whole
      | cons first more =>
        refine ⟨piecesContent config kind first,more.map (piecesContent config kind),rfl,?_,?_⟩
        · rw [map_cons,String.join_cons,said] at joined
          rw [foldl_cons,Option.or_none] at signed
          rw [piecesContent,joined_pieces,joined,signed]
          rfl
        · intro piece mem
          obtain ⟨_,-,rfl⟩ := List.mem_map.mp mem
          exact shape_said kind _ _
    | _ =>
      rw [is] at isText
      cases isText

theorem maps_in_pieces {pieces : List (List Part)} (split : List.Forall₂ Part.InPieces parts pieces) :
    ∀ {m : OutputMapper} {content : List Content}, Maps config m parts content n →
      ∃ contents, Maps config m pieces.flatten contents.flatten n ∧
        List.Forall₂ (Pieces contentShape continued) content contents := by
  induction split with
  | nil =>
    rintro m content (_ | _)
    exact ⟨[],.done n,.nil⟩
  | cons here _ ih =>
    rintro m _ (_ | ⟨becomes,later⟩)
    obtain ⟨first,maps,pieces⟩ := here.maps becomes
    obtain ⟨rest,others,split⟩ := ih later
    exact ⟨first :: rest,maps.append others,.cons pieces split⟩

namespace GoogleStreamState
variable {s : GoogleStreamState} {acc : Accumulation} {g : Gathered Content}

def Holds (s : GoogleStreamState) : Option (Kind × PartId) → Prop
  | none => s.text_block = none ∧ s.reasoning_block = none
  | some (.text,id) => s.text_block = some id ∧ s.reasoning_block = none
  | some (.reasoning,id) => s.text_block = none ∧ s.reasoning_block = some id

def Adds (s : GoogleStreamState) (acc : Accumulation) (g : Gathered Content) : Prop :=
  ∃ opened, s.Holds opened ∧ Accumulates acc g opened

def Leads (acc : Accumulation) (step : GoogleStreamState × List StreamPart) (g : Gathered Content) (m : OutputMapper) : Prop :=
  step.1.mapper = m ∧ ∃ later, acc.after step.2 = .ok later ∧ step.1.Adds later g

variable {t : GoogleStreamState} {p : StreamPart} {opened : Option (Kind × PartId)} {text : String}

theorem Adds.same (adds : s.Adds acc g) (text : t.text_block = s.text_block)
    (reasoning : t.reasoning_block = s.reasoning_block) : t.Adds acc g := by
  obtain ⟨opened,holds,shows_⟩ := adds
  refine ⟨opened,?_,shows_⟩
  rcases opened with _ | ⟨_ | _,_⟩ <;> exact ⟨text.trans holds.1,reasoning.trans holds.2⟩

theorem Leads.append {first second : List StreamPart}
    {f : GoogleStreamState × List StreamPart} {g' : Gathered Content} (here : Leads acc f g m)
    (later : ∀ acc', f.1.mapper = m → f.1.Adds acc' g → Leads acc' (t,second) g' k) (same : f.2 = first) :
    Leads acc (t,first ++ second) g' k := by
  obtain ⟨mapper,acc',after,adds⟩ := here
  obtain ⟨mapper',acc'',after',adds'⟩ := later acc' mapper adds
  refine ⟨mapper',acc'',?_,adds'⟩
  rw [after_append,← same,after]
  exact after'

theorem Adds.silent {parts : List StreamPart} (adds : s.Adds acc g)
    (quiet : ∀ part ∈ parts, Accumulation.silent part = true) (text : t.text_block = s.text_block)
    (reasoning : t.reasoning_block = s.reasoning_block) : Leads acc (t,parts) g t.mapper :=
  ⟨rfl,acc,Accumulation.after_silent quiet acc,adds.same text reasoning⟩

theorem Adds.push (adds : s.Adds acc g)
    (pushes : acc.step p = .ok (acc.push c)) (aside : contentShape c = .aside ∨ contentShape c = .call)
    (text : t.text_block = s.text_block) (reasoning : t.reasoning_block = s.reasoning_block) :
    Leads acc (t,[p]) (g.step contentShape continued c) t.mapper := by
  obtain ⟨opened,holds,shows_⟩ := adds.same text reasoning
  refine ⟨rfl,acc.push c,by rw [after_single,pushes],opened,holds,shows_.push ?_ (.inr ?_)⟩ <;>
    rcases aside with same | same <;> rw [same] <;> decide

theorem text_part_cases (config : Config) (holds : s.Holds opened) (nonempty : text ≠ "")
    (kind : Kind) (signature : Option String) :
    let said := s.text_part config text (kind = .reasoning) signature
    let metadata := signature_metadata config signature
    said.1.mapper = s.mapper ∧ ∃ id, said.1.Holds (some (kind,id)) ∧
      (opened = some (kind,id) ∧ said.2 = [kind.deltaPart id text metadata] ∨
        opened = none ∧ said.2 = [kind.startPart id metadata,kind.deltaPart id text metadata] ∨
        ∃ other before, opened = some (other,before) ∧ other ≠ kind ∧
          said.2 = [other.endPart before none] ++ [kind.startPart id metadata,kind.deltaPart id text metadata]) := by
  intro said metadata
  have heard : said = s.text_part config text (kind = .reasoning) signature := rfl
  simp only [text_part,if_neg nonempty] at heard
  rcases opened with _ | ⟨_ | _,_⟩ <;> cases kind <;>
    simp [heard,end_text,end_reasoning,reasoning,GoogleStreamState.text,next_block_id,holds.1,holds.2,Holds,Kind.startPart,Kind.deltaPart,Kind.endPart,metadata]

theorem Adds.said (config : Config) (adds : s.Adds acc g) (nonempty : text ≠ "") (kind : Kind) (signature : Option String) :
    Leads acc (s.text_part config text (kind = .reasoning) signature)
      (g.step contentShape continued (kind.said text (signature_metadata config signature))) s.mapper := by
  obtain ⟨_,holds,shows_⟩ := adds
  obtain ⟨mapper,id,holds',said⟩ := text_part_cases config holds nonempty kind signature
  refine ⟨mapper,?_⟩
  rcases said with ⟨rfl,said⟩ | ⟨rfl,said⟩ | ⟨_,_,rfl,apart,said⟩
  · obtain ⟨later,after,shown⟩ := shows_.goesOn text (signature_metadata config signature)
    exact ⟨later,said ▸ after,_,holds',shown⟩
  · obtain ⟨later,after,shown⟩ := shows_.opens kind id text (signature_metadata config signature)
    exact ⟨later,said ▸ after,_,holds',shown⟩
  · obtain ⟨_,ended,shown⟩ := shows_.ends
    obtain ⟨later,after,shown'⟩ := shown.opens kind id text (signature_metadata config signature)
    refine ⟨later,?_,_,holds',?_⟩
    · rw [said,after_append,ended]
      exact after
    · rw [← shows_.close (.inr ⟨kind,shape_said kind _ _,by simpa using apart⟩)]
      exact shown'

def end_blocks (s : GoogleStreamState) : GoogleStreamState × List StreamPart :=
  (s.end_text.1.end_reasoning.1,s.end_text.2 ++ s.end_text.1.end_reasoning.2)

theorem end_blocks_of_holds (holds : s.Holds opened) :
    s.end_blocks.1.mapper = s.mapper ∧ s.end_blocks.1.Holds none ∧
      s.end_blocks.2 = (opened.map fun part => part.1.endPart part.2 none).toList := by
  rcases opened with _ | ⟨_ | _,_⟩ <;>
    simp [end_blocks,end_text,end_reasoning,holds.1,holds.2,Holds,Kind.endPart]

theorem Adds.ends (adds : s.Adds acc g) :
    s.end_blocks.1.mapper = s.mapper ∧ s.end_blocks.1.Holds none ∧
      ∃ later g', acc.after s.end_blocks.2 = .ok later ∧ Accumulates later g' none ∧ g'.content = g.content ∧
        ∀ c, contentShape c = .wall → g'.step contentShape continued c = g.step contentShape continued c := by
  obtain ⟨opened,holds,shows_⟩ := adds
  obtain ⟨mapper,holds',parts⟩ := end_blocks_of_holds holds
  refine ⟨mapper,holds',?_⟩
  rw [parts]
  cases opened with
  | none => exact ⟨acc,g,rfl,shows_,rfl,fun _ _ => rfl⟩
  | some =>
    obtain ⟨later,after,shown⟩ := shows_.ends
    exact ⟨later,g.close,after,shown,by simp [Gathered.close,Gathered.content],fun c wall => shows_.close (.inl wall)⟩

theorem Adds.file (adds : s.Adds acc g) (wall : contentShape c = .wall)
    (pushes : ∀ acc : Accumulation, acc.step p = .ok (acc.push c)) :
    Leads acc (s.end_blocks.1,s.end_blocks.2 ++ [p]) (g.step contentShape continued c) s.mapper := by
  obtain ⟨mapper,holds,later,_,after,shown,-,closing⟩ := adds.ends
  refine ⟨mapper,later.push c,?_,none,holds,closing c wall ▸ shown.push ?_ (.inl rfl)⟩
  · rw [after_append,after]
    exact (after_single later p).trans (pushes later)
  · rw [wall]
    rfl

theorem Adds.content_parts (adds : s.Adds acc g) (becomes : part.Becomes config s.mapper c n) (other : part.shape ≠ .call) :
    Leads acc (s.content_parts config part) (g.step contentShape continued c) n := by
  obtain ⟨payload,is,whole,mapped⟩ := becomes
  generalize thought_is : part.thought = thought at is mapped
  generalize signature_is : part.thought_signature = signature at is mapped
  subst is
  cases payload with
  | Text text =>
    cases mapped
    have said := adds.said config whole (if thought = some true then .reasoning else .text) signature
    by_cases thinks : thought = some true <;>
      simpa [GoogleStreamState.content_parts,Payload.part,thinks,Kind.said] using said
  | FunctionCall => exact absurd rfl other
  | InlineData inline =>
    obtain ⟨_,decoded⟩ := whole
    have shown : (s.content_parts config ((Payload.InlineData inline).part thought signature)) =
        (s.end_blocks.1,s.end_blocks.2 ++
          file_parts (inline_file config inline.mime_type inline.data (thought = some true) signature)) := rfl
    rw [shown]
    rw [content] at mapped
    by_cases thinks : thought = some true
    · simp only [inline_file,decoded,thinks,decide_true,if_true,Except.map] at mapped ⊢
      cases mapped
      exact adds.file rfl fun _ => rfl
    · simp only [inline_file,decoded,thinks,decide_false,Except.map] at mapped ⊢
      cases mapped
      exact adds.file rfl fun _ => rfl
  | ExecutableCode code =>
    cases mapped
    have isCode : (some code : Option ExecutableCode).filter (·.code.isSome) = some code := by
      rw [Option.filter_some,if_pos (show code.code.isSome = true from whole)]
    simp only [GoogleStreamState.content_parts,Payload.part,isCode]
    exact adds.push rfl (.inl rfl) rfl rfl
  | CodeExecutionResult => cases mapped; exact adds.push rfl (.inl rfl) rfl rfl
  | ToolCall => cases mapped; exact adds.push rfl (.inl rfl) rfl rfl
  | ToolResponse => cases mapped; exact adds.push rfl (.inl rfl) rfl rfl

theorem content_parts_call (becomes : part.Becomes config m c n) (isCall : part.shape = .call) (s : GoogleStreamState) :
    s.content_parts config part = (s,[]) := by
  obtain ⟨payload,is,-⟩ := becomes
  rw [is] at isCall ⊢
  cases payload with
  | FunctionCall => rfl
  | _ => simp [Part.shape,Payload.part] at isCall

theorem function_call_part_other (becomes : part.Becomes config m c n) (other : part.shape ≠ .call) (s : GoogleStreamState) :
    s.function_call_part config part = (s,[]) := by
  obtain ⟨payload,is,-⟩ := becomes
  rw [is] at other ⊢
  cases payload with
  | FunctionCall => exact absurd rfl other
  | _ => rfl

theorem Adds.function_call_part (adds : s.Adds acc g) (becomes : part.Becomes config s.mapper c n) (isCall : part.shape = .call) :
    Leads acc (s.function_call_part config part) (g.step contentShape continued c) n := by
  obtain ⟨payload,is,whole,mapped⟩ := becomes
  generalize part.thought = thought at is mapped
  generalize part.thought_signature = signature at is mapped
  subst is
  cases payload with
  | FunctionCall call =>
    obtain ⟨named,-,complete⟩ := whole
    obtain ⟨name,named⟩ := Option.isSome_iff_exists.mp named
    have goes : call.is_terminal = false := by simp [FunctionCall.is_terminal,named]
    rw [content,named] at mapped
    cases mapped
    have shown : s.function_call_part config ((Payload.FunctionCall call).part thought signature) =
        s.complete_call config call name (signature_metadata config signature) := by
      simp [GoogleStreamState.function_call_part,Payload.part,complete,goes,named]
    rw [shown,complete_call]
    dsimp only
    rw [append_cons]
    refine Leads.append (adds.silent (t := s) ?_ rfl rfl) (fun acc' _ adds' => ?_) rfl
    · intro part member
      split at member <;> simp at member
      all_goals rcases member with rfl | rfl | rfl <;> rfl
    · exact adds'.push rfl (.inr rfl) rfl rfl
  | _ => simp [Part.shape,Payload.part] at isCall

theorem Adds.contents (maps : Maps config m parts content k) :
    ∀ {s : GoogleStreamState} {acc : Accumulation} {g : Gathered Content}, s.mapper = m → s.Adds acc g →
      Leads acc (each (GoogleStreamState.content_parts config) s parts)
        ((content.filter fun c => contentShape c ≠ .call).foldl (Gathered.step contentShape continued) g) k := by
  induction maps with
  | done => exact fun mapper adds => ⟨mapper,_,rfl,adds⟩
  | @next m n k part c rest content becomes _ ih =>
    rintro s _ g rfl adds
    by_cases isCall : part.shape = .call
    · have same : n = s.mapper := (becomes.of_call isCall).1
      rw [filter_cons_of_neg (by simpa [← becomes.shape] using isCall),each,content_parts_call becomes isCall]
      exact ih same.symm adds
    · rw [filter_cons_of_pos (by simpa [← becomes.shape] using isCall),foldl_cons,each]
      exact (adds.content_parts becomes isCall).append (fun acc' mapper adds' => ih mapper adds') rfl

theorem Adds.calls (maps : Maps config m parts content k) :
    ∀ {s : GoogleStreamState} {acc : Accumulation} {g : Gathered Content}, s.Adds acc g →
      Leads acc (each (GoogleStreamState.function_call_part config) s parts)
        ((content.filter fun c => contentShape c = .call).foldl (Gathered.step contentShape continued) g) s.mapper := by
  induction maps with
  | done => exact fun adds => ⟨rfl,_,rfl,adds⟩
  | @next m n k part c rest content becomes _ ih =>
    intro s acc g adds
    by_cases isCall : part.shape = .call
    · rw [filter_cons_of_pos (by simpa [← becomes.shape] using isCall),foldl_cons,each]
      have here := adds.function_call_part ((becomes.of_call isCall).2 s.mapper) isCall
      refine here.append (fun acc' mapper adds' => ?_) rfl
      rw [← mapper]
      exact ih adds'
    · rw [filter_cons_of_neg (by simpa [← becomes.shape] using isCall),each,function_call_part_other becomes isCall]
      exact ih adds

structure Keeps (s t : GoogleStreamState) : Prop where
  mapper : t.mapper = s.mapper
  text : t.text_block = s.text_block
  reasoning : t.reasoning_block = s.reasoning_block

theorem response_part_quiet (s : GoogleStreamState) (value : GenerateContentResponse) :
    s.Keeps (s.response_part value).1 ∧ ∀ part ∈ (s.response_part value).2, Accumulation.silent part = true := by
  unfold response_part
  split
  · split
    · exact ⟨⟨rfl,rfl,rfl⟩,by simp⟩
    · exact ⟨⟨rfl,rfl,rfl⟩,by simp [Accumulation.silent]⟩
  · exact ⟨⟨rfl,rfl,rfl⟩,by simp⟩

theorem record_usage_keeps (s : GoogleStreamState) (value : GenerateContentResponse) (raw : JsonValue) :
    s.Keeps (s.record_usage value raw) := by
  unfold record_usage
  split <;> exact ⟨rfl,rfl,rfl⟩

theorem blocked_keeps (s : GoogleStreamState) (value : GenerateContentResponse) : s.Keeps (s.blocked config value) := by
  unfold blocked
  split <;> exact ⟨rfl,rfl,rfl⟩

theorem record_finish_keeps (s : GoogleStreamState) (value : GenerateContentResponse) (candidate : Candidate) :
    s.Keeps (s.record_finish config value candidate) := by
  unfold record_finish
  dsimp only
  split <;> exact ⟨rfl,rfl,rfl⟩

theorem Keeps.trans {u : GoogleStreamState} (first : s.Keeps t) (second : t.Keeps u) : s.Keeps u :=
  ⟨second.mapper.trans first.mapper,second.text.trans first.text,second.reasoning.trans first.reasoning⟩

theorem Leads.keeps {parts : List StreamPart} (leads : Leads acc (s,parts) g m) (keeps : s.Keeps t) :
    Leads acc (t,parts) g m := by
  obtain ⟨mapper,later,after,adds⟩ := leads
  exact ⟨keeps.mapper.trans mapper,later,after,adds.same keeps.text keeps.reasoning⟩

theorem Adds.handle_chunk (adds : s.Adds acc g) {value : GenerateContentResponse} (unsourced : value.Unsourced config)
    (maps : Maps config s.mapper value.parts content n) (raw : JsonValue) :
    Leads acc (s.handle_chunk config value raw) ((late contentShape content).foldl (Gathered.step contentShape continued) g) n := by
  obtain ⟨keeps,quiet⟩ := s.response_part_quiet value
  have recorded := keeps.trans (record_usage_keeps (s.response_part value).1 value raw)
  have started : Leads acc (((s.response_part value).1.record_usage value raw),(s.response_part value).2) g s.mapper := by
    have told := adds.silent quiet recorded.text recorded.reasoning
    rwa [recorded.mapper] at told
  cases isCandidate : value.candidate with
  | none =>
    have none_ : value.parts = [] := by rw [GenerateContentResponse.parts,isCandidate]; rfl
    rw [none_] at maps
    cases maps
    rw [GoogleStreamState.handle_chunk,isCandidate]
    exact started.keeps (blocked_keeps _ value)
  | some candidate =>
    have parts : value.parts = candidate.parts.getD [] := by rw [GenerateContentResponse.parts,isCandidate]; rfl
    rw [parts] at maps
    let begun := ((s.response_part value).1.record_usage value raw).record_grounding candidate
    let told := each (GoogleStreamState.content_parts config) begun (candidate.parts.getD [])
    let calls := each (GoogleStreamState.function_call_part config) told.1 (candidate.parts.getD [])
    have shown : s.handle_chunk config value raw =
        (calls.1.record_finish config value candidate,(s.response_part value).2 ++ told.2 ++ calls.2) := by
      rw [GoogleStreamState.handle_chunk,isCandidate]
      dsimp only
      rw [unsourced candidate isCandidate,sources,each,append_nil]
    rw [shown,late,foldl_append]
    have grounded : Leads acc (begun,(s.response_part value).2) g s.mapper := started.keeps ⟨rfl,rfl,rfl⟩
    have first := grounded.append (fun acc' mapper adds' => Adds.contents maps mapper adds') rfl
    refine Leads.keeps (first.append (fun acc' mapper adds' => ?_) rfl) (record_finish_keeps calls.1 value candidate)
    rw [← mapper]
    exact Adds.calls maps adds'

theorem Adds.finish (adds : s.Adds acc g) : ∃ later, acc.after s.finish = .ok later ∧ later.content = g.content := by
  unfold GoogleStreamState.finish
  split_ifs
  · obtain ⟨_,_,shows_⟩ := adds
    exact ⟨acc,rfl,shows_.content⟩
  · obtain ⟨-,-,later,_,after,shown,whole,-⟩ := adds.ends
    refine ⟨later,?_,shown.content.trans whole⟩
    dsimp only
    rw [after_append]
    rw [end_blocks] at after
    rw [after]
    rfl

theorem Adds.outputs (include_raw : Bool)
    (unsourced : ∀ chunk ∈ chunks, chunk.1.Unsourced config) : ∀ {s : GoogleStreamState} {acc : Accumulation}
    {g : Gathered Content} {content : List Content}, s.Adds acc g →
    Maps config s.mapper (chunks.flatMap (·.1.parts)) content n → ∃ contents,
      contents.flatten = content ∧ List.Forall₂ (fun chunk content => chunk.1.parts.map Part.shape = content.map contentShape) chunks contents ∧
      ∃ later, acc.after (outputs (machine config) include_raw s (chunks.map fun chunk => .Ok chunk.1 chunk.2)) = .ok later ∧
        later.content = ((contents.flatMap (late contentShape)).foldl (Gathered.step contentShape continued) g).content := by
  induction chunks with
  | nil =>
    rintro s acc g content adds (_ | _)
    exact ⟨[],rfl,.nil,adds.finish⟩
  | cons chunk rest ih =>
    intro s acc g content adds maps
    obtain ⟨own,_,k,rfl,here,later⟩ := maps.split
    obtain ⟨sourceless,unsourced⟩ := List.forall_mem_cons.mp unsourced
    have raws : ∀ part ∈ (if include_raw then [StreamPart.Raw chunk.2] else []), Accumulation.silent part = true := by
      cases include_raw <;> simp [Accumulation.silent]
    have begun : Leads acc (s,if include_raw then [StreamPart.Raw chunk.2] else []) g s.mapper := adds.silent raws rfl rfl
    have led : Leads acc ((s.handle_chunk config chunk.1 chunk.2).1,
        (if include_raw then [StreamPart.Raw chunk.2] else []) ++ (s.handle_chunk config chunk.1 chunk.2).2)
        ((late contentShape own).foldl (Gathered.step contentShape continued) g) k :=
      begun.append (fun acc' _ adds' => adds'.handle_chunk sourceless here chunk.2) rfl
    obtain ⟨mapper,_,after,adds'⟩ := led
    obtain ⟨contents,rfl,shapes,last,after',whole⟩ := ih unsourced adds' (mapper ▸ later)
    refine ⟨own :: contents,rfl,.cons here.shapes shapes,last,?_,?_⟩
    · have stepped : Stream.outputs (machine config) include_raw s ((chunk :: rest).map fun chunk => .Ok chunk.1 chunk.2) =
          ((if include_raw then [StreamPart.Raw chunk.2] else []) ++ (s.handle_chunk config chunk.1 chunk.2).2) ++
            Stream.outputs (machine config) include_raw (s.handle_chunk config chunk.1 chunk.2).1
              (rest.map fun chunk => .Ok chunk.1 chunk.2) := rfl
      rw [stepped,after_append,after]
      exact after'
    · rw [whole,flatMap_cons,foldl_append]

end GoogleStreamState

theorem inOrder_chunks {contents : List (List Content)}
    (shapes : List.Forall₂ (fun chunk content => chunk.1.parts.map Part.shape = content.map contentShape) chunks contents) :
    (∀ chunk ∈ chunks, InOrder Part.shape chunk.1.parts) ↔ ∀ content ∈ contents, InOrder contentShape content := by
  induction shapes with
  | nil => simp
  | cons here _ ih => rw [forall_mem_cons,forall_mem_cons,inOrder_of_shapes here,ih]

/-- The stream adds up to the complete response, neighbouring texts merged, exactly if the function calls of each chunk are
    its last parts and no text is gone on with after calls or code. Both responses draw their ids from one generator. -/
theorem google_complete_streamed_agree {parts : List Part} (single : ∀ part ∈ parts, part.Single config)
    {pieces : List (List Part)} (split : List.Forall₂ Part.InPieces parts pieces)
    {chunks : List (GenerateContentResponse × JsonValue)} (carried : chunks.flatMap (·.1.parts) = pieces.flatten)
    (unsourced : ∀ chunk ∈ chunks, chunk.1.Unsourced config) (include_raw : Bool) :
    (∃ m content, map_parts config .new parts = .ok (m,content) ∧
      accumulate (outputs (GoogleStreamState.machine config) include_raw (.new .new)
        (chunks.map fun chunk => .Ok chunk.1 chunk.2)) = .ok (merged contentShape continued content)) ↔
      (∀ chunk ∈ chunks, InOrder Part.shape chunk.1.parts) ∧ ¬ Shape.Resumed (parts.map Part.shape) := by
  obtain ⟨content,n,maps⟩ := maps_of_single single .new
  obtain ⟨pieceContents,streamed,split⟩ := maps_in_pieces split maps
  rw [← carried] at streamed
  have fresh : (new .new).Adds .start .start := ⟨none,⟨rfl,rfl⟩,accumulates_start⟩
  obtain ⟨contents,same,shapes,later,after,adds⟩ := fresh.outputs include_raw unsourced streamed
  have complete : map_parts config .new parts = .ok (n,content) := maps.map_parts []
  have total : accumulate (outputs (machine config) include_raw (.new .new)
      (chunks.map fun chunk => .Ok chunk.1 chunk.2)) = .ok (gather contentShape continued (contents.flatMap (late contentShape))) := by
    rw [accumulate,after]
    exact congrArg Except.ok adds
  rw [inOrder_chunks shapes,maps.shapes,← gather_late_pieces_iff shape_continued continued_associative split same,complete,total]
  constructor
  · rintro ⟨m,content',rfl',equal⟩
    cases rfl'
    exact Except.ok.inj equal
  · exact fun equal => ⟨n,content,rfl,congrArg _ equal⟩

end

def chunkOf (parts : List Part) (finish_reason : Option String) : GenerateContentResponse × JsonValue :=
  (⟨some [⟨some parts,finish_reason,none,none,none,none⟩],none,none,none⟩,.null)

def textPart (text : String) (thought_signature : Option String) : Part :=
  (Payload.Text text).part none thought_signature

def weatherCall : Part := callPart ⟨some "1",some "weather",some (.object []),none,none⟩

def answerParts : List Part := [textPart "It rains." (some "sign"),weatherCall]

theorem answerParts_single : ∀ part ∈ answerParts, part.Single exampleConfig := by
  simp only [answerParts,forall_mem_cons,not_mem_nil,false_implies,implies_true,and_true]
  exact ⟨⟨.Text "It rains.",rfl,show "It rains." ≠ "" by decide⟩,.FunctionCall ⟨some "1",some "weather",some (.object []),none,none⟩,rfl,
    rfl,⟨"1",rfl,by decide⟩,rfl⟩

/-- A text in two pieces, the second of them in one chunk with a call. -/
theorem google_complete_streamed_agree_pieces :
    ∃ m content, map_parts exampleConfig .new answerParts = .ok (m,content) ∧
      accumulate (outputs (GoogleStreamState.machine exampleConfig) false (.new .new)
        ([chunkOf [textPart "It " none] none,chunkOf [textPart "rains." (some "sign"),weatherCall] (some "STOP")].map
          fun chunk => .Ok chunk.1 chunk.2)) = .ok (merged contentShape continued content) := by
  have split : List.Forall₂ Part.InPieces answerParts
      [[textPart "It " none,textPart "rains." (some "sign")],[weatherCall]] := by
    refine .cons (.inr ⟨rfl,?_,by decide,rfl⟩) (.cons (.inl rfl) .nil)
    simp only [forall_mem_cons,not_mem_nil,false_implies,implies_true,and_true]
    exact ⟨⟨by decide,"It ",by decide,rfl⟩,by decide,"rains.",by decide,rfl⟩
  refine (google_complete_streamed_agree answerParts_single split rfl ?_ false).mpr ⟨?_,?_⟩
  · simp only [forall_mem_cons,not_mem_nil,false_implies,implies_true,and_true]
    constructor <;> rintro _ ⟨⟩ <;> rfl
  · simp only [forall_mem_cons,not_mem_nil,false_implies,implies_true,and_true]
    exact ⟨pairwise_singleton _ _,show List.Pairwise _ _ by decide⟩
  · rw [← Shape.resumptions_eq_zero]
    decide

def streamedContent (chunks : List (GenerateContentResponse × JsonValue)) : Except Ferrin.Error (List Content) :=
  accumulate (outputs (GoogleStreamState.machine exampleConfig) false (.new .new) (chunks.map fun chunk => .Ok chunk.1 chunk.2))

def completeContent (parts : List Part) : Except ProviderError (List Content) :=
  (map_parts exampleConfig .new parts).map fun mapped => merged contentShape continued mapped.2

/-- Text after a call becomes part of the text before it, and text after a call in one chunk comes before the call. -/
theorem text_after_call_displaced :
    completeContent [textPart "a" none,weatherCall,textPart "b" none] =
        .ok [.Text "a" none,.ToolCall (.new "1" "weather" "{}"),.Text "b" none] ∧
      streamedContent [chunkOf [textPart "a" none] none,chunkOf [weatherCall] none,chunkOf [textPart "b" none] (some "STOP")] =
        .ok [.Text "ab" none,.ToolCall (.new "1" "weather" "{}")] ∧
      completeContent [weatherCall,textPart "b" none] = .ok [.ToolCall (.new "1" "weather" "{}"),.Text "b" none] ∧
      streamedContent [chunkOf [weatherCall,textPart "b" none] (some "STOP")] =
        .ok [.Text "b" none,.ToolCall (.new "1" "weather" "{}")] := by
  decide

end Ferrin.Google

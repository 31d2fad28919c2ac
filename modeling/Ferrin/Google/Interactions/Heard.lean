import Ferrin.Google.Interactions.Stream
import Ferrin.StreamText.Accumulate

/-!
What is heard of a streamed step: the sources that were not shown before, and
the text that is told with other content before and after its start.
-/
namespace Ferrin.Google.Interactions
open Ferrin.Stream Ferrin.StreamText List State

/-! ### Sources -/

def erased : Source → Source
  | .Url _ url title metadata => .Url "" url title metadata
  | .Document _ media_type title filename metadata => .Document "" media_type title filename metadata

@[simp] theorem key_erased (source : Source) : key (erased source) = key source := by cases source <;> rfl

def fresh : List String → List Source → List String × List Source
  | seen,[] => (seen,[])
  | seen,source :: rest =>
    if key source ∈ seen then fresh seen rest
    else ((fresh (key source :: seen) rest).1,source :: (fresh (key source :: seen) rest).2)

theorem distinct_eq_fresh (sources : List Source) : ∀ seen, distinct seen sources = (fresh seen sources).2 := by
  induction sources with
  | nil => exact fun _ => rfl
  | cons _ _ ih =>
    intro seen
    rw [distinct,fresh]
    split <;> simp [ih]

theorem fresh_append (first second : List Source) : ∀ seen, fresh seen (first ++ second) =
    ((fresh (fresh seen first).1 second).1,(fresh seen first).2 ++ (fresh (fresh seen first).1 second).2) := by
  induction first with
  | nil => exact fun _ => rfl
  | cons _ _ ih =>
    intro seen
    rw [cons_append,fresh,fresh]
    split <;> simp [ih]

theorem fresh_erased (sources : List Source) : ∀ seen,
    fresh seen (sources.map erased) = ((fresh seen sources).1,(fresh seen sources).2.map erased) := by
  induction sources with
  | nil => exact fun _ => rfl
  | cons _ _ ih =>
    intro seen
    rw [map_cons,fresh,fresh,key_erased]
    split <;> simp [ih]

theorem fresh_distinct (sources : List Source) : ∀ {earlier seen : List String}, earlier ⊆ seen →
    fresh seen (distinct earlier sources) = fresh seen sources := by
  induction sources with
  | nil => exact fun _ => rfl
  | cons source _ ih =>
    intro earlier seen within
    rw [distinct]
    by_cases known : key source ∈ earlier
    · have late : key source ∈ seen := within known
      rw [if_pos known,fresh,if_pos late]
      exact ih within
    · rw [if_neg known,fresh,fresh]
      by_cases late : key source ∈ seen
      · rw [if_pos late,if_pos late]
        exact ih (List.cons_subset.mpr ⟨late,within⟩)
      · rw [if_neg late,if_neg late,ih (cons_subset_cons _ within)]

def Cites (sources : List Source) (cites : List Source) : Prop := ∀ seen, fresh seen (sources.map erased) = fresh seen cites

theorem Cites.append {first second cites others : List Source} (here : Cites first cites) (there : Cites second others) :
    Cites (first ++ second) (cites ++ others) := by
  intro seen
  rw [map_append,fresh_append,fresh_append,here,there]

theorem fresh_groups (groups : List (List Source)) : ∀ seen, fresh seen (groups.flatMap (distinct [])) = fresh seen groups.flatten := by
  induction groups with
  | nil => exact fun _ => rfl
  | cons first _ ih =>
    intro seen
    rw [flatMap_cons,flatten_cons,fresh_append,fresh_append,fresh_distinct first (nil_subset seen),ih]

theorem Cites.of_groups {found : List Source} {groups : List (List Source)} (same : found.map erased = groups.flatMap (distinct [])) :
    Cites found groups.flatten := by
  intro seen
  rw [same,fresh_groups]

def annotationCites (config : Config) (value : JsonValue) : List Source := ( annotation config 0 value).2.map erased

def resultCites (config : Config) (kind : Option String) (result : JsonValue) : List Source :=
  (cited config kind 0 result).2.map erased

def cites (config : Config) (value : JsonValue) : List Source :=
  (value.items "annotations").flatMap ( annotationCites config) ++
    (value.items "result").flatMap (resultCites config (value.text "type"))

section
variable {config : Config}

theorem gather_erased {read : Nat → JsonValue → Nat × List Source}
    (alike : ∀ generated value, (read generated value).2.map erased = (read 0 value).2.map erased) (values : List JsonValue) :
    ∀ generated, (gather read generated values).2.map erased = values.flatMap fun value => (read 0 value).2.map erased := by
  induction values with
  | nil => exact fun _ => rfl
  | cons value _ ih =>
    intro generated
    rw [gather,flatMap_cons,← ih (read generated value).1,← alike generated value,← map_append]

theorem url_erased (value : JsonValue) (title_key : String) (generated : Nat) :
    (single (url config generated value title_key)).2.map erased = (single (url config 0 value title_key)).2.map erased := by
  simp only [single,url]
  cases nonempty (value.text "url") <;> rfl

theorem document_erased (value : JsonValue) (generated : Nat) :
    (single (document config generated value)).2.map erased = (single (document config 0 value)).2.map erased := by
  simp only [single,document]
  split
  · rfl
  · split <;> rfl

theorem annotation_erased (generated : Nat) (value : JsonValue) :
    ( annotation config generated value).2.map erased = annotationCites config value := by
  unfold annotationCites annotation
  split
  · exact url_erased value _ generated
  · exact url_erased value _ generated
  · exact document_erased value generated
  · rfl

theorem cited_erased (kind : Option String) (generated : Nat) (value : JsonValue) :
    (cited config kind generated value).2.map erased = resultCites config kind value := by
  unfold resultCites cited
  split
  · exact url_erased value _ generated
  · split
    · exact url_erased value _ generated
    · exact url_erased value _ generated
    · exact url_erased value _ generated
    · rfl
  · rw [gather_erased fun generated place => url_erased place "name" generated,
      gather_erased fun generated place => url_erased place "name" generated]
  · exact document_erased value generated
  · rfl

def sourceOf : Content → Option Source
  | .Source source => some source
  | _ => none

def sources (content : List Content) : List Source := content.filterMap sourceOf

theorem extract_eq (config : Config) (generated : Nat) (value : JsonValue) : ∃ found : List Source,
    (extract config generated value).2 = found.map .Source ∧ found.map erased = distinct [] (cites config value) := by
  refine ⟨_,rfl,?_⟩
  have annotations (n : Nat) (values : List JsonValue) :
      (gather ( annotation config) n values).2.map erased = values.flatMap ( annotationCites config) :=
    gather_erased (fun n value => (annotation_erased n value).trans (annotation_erased 0 value).symm) values n
  have results (kind : Option String) (n : Nat) (values : List JsonValue) :
      (gather (cited config kind) n values).2.map erased = values.flatMap (resultCites config kind) :=
    gather_erased (fun n value => (cited_erased kind n value).trans (cited_erased kind 0 value).symm) values n
  rw [distinct_eq_fresh,distinct_eq_fresh]
  have both := fresh_erased ((gather ( annotation config) generated (value.items "annotations")).2 ++
    (gather (cited config (value.text "type")) (gather ( annotation config) generated (value.items "annotations")).1
      (value.items "result")).2) []
  rw [map_append,annotations,results] at both
  exact (congrArg Prod.snd both).symm

end

def textOf : Content → Option String
  | .Text text _ => some text
  | _ => none

def said (content : List Content) : String := String.join (content.filterMap textOf)

/-- What is neither a text nor a source, files without their metadata. -/
def pieceOf : Content → Option Content
  | .Text .. | .Source _ => none
  | .File data media_type filename _ => some (.File data media_type filename none)
  | part => some part

def pieces (content : List Content) : List Content := content.filterMap pieceOf

@[simp] theorem said_append (first second : List Content) : said (first ++ second) = said first ++ said second := by
  simp [said,filterMap_append]

@[simp] theorem pieces_append (first second : List Content) : pieces (first ++ second) = pieces first ++ pieces second :=
  filterMap_append

@[simp] theorem sources_append (first second : List Content) : sources (first ++ second) = sources first ++ sources second :=
  filterMap_append

section
variable {text : String} {metadata : Option ProviderMetadata} {rest : List Content}

@[simp] theorem said_text : said (.Text text metadata :: rest) = text ++ said rest := by simp [said,textOf]

@[simp] theorem pieces_text : pieces (.Text text metadata :: rest) = pieces rest := List.filterMap_cons_none rfl

@[simp] theorem sources_text : sources (.Text text metadata :: rest) = sources rest := List.filterMap_cons_none rfl

@[simp] theorem said_nil : said [] = "" := rfl

@[simp] theorem pieces_nil : pieces [] = [] := rfl

@[simp] theorem sources_nil : sources [] = [] := rfl

end

section
variable (found : List Source)

@[simp] theorem said_found : said (found.map .Source) = "" := by
  have silent : (found.map Content.Source).filterMap textOf = [] := List.filterMap_eq_nil_iff.mpr (by simp [textOf])
  rw [said,silent,String.join_nil]

@[simp] theorem pieces_found : pieces (found.map .Source) = [] := List.filterMap_eq_nil_iff.mpr (by simp [pieceOf])

@[simp] theorem sources_found : sources (found.map .Source) = found := by
  rw [sources,filterMap_map]
  exact List.filterMap_some

end

structure Heard where
  front : List Content
  text : Option (String × Option ProviderMetadata)
  back : List Content

namespace Heard

def nothing : Heard := ⟨[],none,[]⟩

def push (h : Heard) (c : Content) : Heard :=
  match h.text with
  | none => { h with front := h.front ++ [c] }
  | some _ => { h with back := h.back ++ [c] }

def say (h : Heard) (text : String) (metadata : Option ProviderMetadata) : Heard :=
  match h.text with
  | none => ⟨h.front,some (text,metadata),[]⟩
  | some (before,earlier) => { h with text := some (before ++ text,earlier) }

def content (h : Heard) : List Content := h.front ++ (h.text.map fun text => Content.Text text.1 text.2).toList ++ h.back

def acc (h : Heard) (before : List Content) (id : PartId) : Accumulation :=
  match h.text with
  | none => ⟨before ++ h.front,.empty⟩
  | some (text,metadata) => .opened (before ++ h.front) .text id text metadata h.back

def hear : List String × Heard → Content → List String × Heard
  | (seen,h),.Text text metadata => (seen,h.say text metadata)
  | (seen,h),.Source source => if key source ∈ seen then (seen,h) else (key source :: seen,h.push (.Source source))
  | (seen,h),c => (seen,h.push c)

structure Tells (h : Heard) (text : String) (others : List Content) (found : List Source) : Prop where
  said : Interactions.said h.content = text
  pieces : Interactions.pieces h.content = others
  sources : Interactions.sources h.content = found
  first : Interactions.said h.front = ""
  last : Interactions.said h.back = ""
  waits : h.text = none → h.back = []

theorem tells_nothing : Tells nothing "" [] [] := ⟨rfl,rfl,rfl,rfl,rfl,fun _ => rfl⟩

section
variable {h : Heard} {text : String} {others : List Content} {found : List Source}

theorem Tells.push (tells : Tells h text others found) {c : Content} (silent : textOf c = none) :
    Tells (h.push c) text (others ++ Interactions.pieces [c]) (found ++ Interactions.sources [c]) := by
  obtain ⟨_,open_,back⟩ := h
  obtain ⟨rfl,rfl,rfl,first,last,waits⟩ := tells
  have quiet : Interactions.said [c] = "" := by simp [Interactions.said,silent]
  cases open_ with
  | none =>
    obtain rfl : back = [] := waits rfl
    refine ⟨?_,?_,?_,?_,last,fun _ => rfl⟩ <;> simp_all [Heard.push,content]
  | some =>
    refine ⟨?_,?_,?_,first,?_,fun none_ => by cases none_⟩ <;> (simp [Heard.push,content,quiet]; try exact last)

theorem Tells.say (tells : Tells h text others found) (more : String) (metadata : Option ProviderMetadata) :
    Tells (h.say more metadata) (text ++ more) others found := by
  obtain ⟨_,open_,back⟩ := h
  obtain ⟨rfl,rfl,rfl,first,last,waits⟩ := tells
  cases open_ with
  | none =>
    obtain rfl : back = [] := waits rfl
    refine ⟨?_,?_,?_,first,last,fun none_ => by cases none_⟩ <;> simp_all [Heard.say,content]
  | some =>
    refine ⟨?_,?_,?_,first,last,fun none_ => by cases none_⟩ <;> simp_all [Heard.say,content]

theorem Tells.hear (tells : Tells h text others found) (seen : List String) (c : Content) :
    (Heard.hear (seen,h) c).1 = (fresh seen (Interactions.sources [c])).1 ∧
      Tells (Heard.hear (seen,h) c).2 (text ++ Interactions.said [c]) (others ++ Interactions.pieces [c])
        (found ++ (fresh seen (Interactions.sources [c])).2) := by
  have pushed : textOf c = none → Tells (h.push c) text (others ++ Interactions.pieces [c]) (found ++ Interactions.sources [c]) :=
    tells.push
  have quiet : textOf c = none → Interactions.said [c] = "" := fun silent => by simp [Interactions.said,silent]
  have uncited : sourceOf c = none → Interactions.sources [c] = [] := filterMap_cons_none
  cases c with
  | Text more metadata => exact ⟨rfl,by simpa [Heard.hear,fresh] using tells.say more metadata⟩
  | Source source =>
    have pushed := pushed rfl
    have quiet := quiet rfl
    have isSource : Interactions.sources [.Source source] = [source] := rfl
    by_cases known : key source ∈ seen
    · have nothing : Interactions.pieces [.Source source] = [] := rfl
      simp [Heard.hear,known,isSource,fresh,quiet,nothing,tells]
    · rw [isSource] at pushed
      simp [Heard.hear,known,isSource,fresh,quiet,pushed]
  | _ =>
    have pushed := pushed rfl
    rw [uncited rfl] at pushed
    rw [uncited rfl,quiet rfl]
    exact ⟨rfl,by simpa [Heard.hear,fresh] using pushed⟩

theorem Tells.all (contents : List Content) : ∀ (seen : List String) {h : Heard} {text : String} {others : List Content}
    {found : List Source}, Tells h text others found →
      (contents.foldl Heard.hear (seen,h)).1 = (fresh seen (Interactions.sources contents)).1 ∧
        Tells (contents.foldl Heard.hear (seen,h)).2 (text ++ Interactions.said contents) (others ++ Interactions.pieces contents)
          (found ++ (fresh seen (Interactions.sources contents)).2) := by
  induction contents with
  | nil => intro seen h text others found tells; exact ⟨rfl,by simpa [fresh] using tells⟩
  | cons c _ ih =>
    intro seen h text others found tells
    obtain ⟨keys,here⟩ := tells.hear seen c
    rcases after : Heard.hear (seen,h) c with ⟨seen',_⟩
    rw [after] at keys here
    obtain rfl : seen' = _ := keys
    obtain ⟨later,all⟩ := ih _ here
    rw [← singleton_append,said_append,pieces_append,sources_append,fresh_append,singleton_append,foldl_cons,after]
    refine ⟨later,?_⟩
    rw [String.append_assoc,append_assoc,append_assoc] at all
    exact all

end

variable (h : Heard)

theorem acc_push (before : List Content) (id : PartId) (c : Content) :
    (h.acc before id).push c = (h.push c).acc before id := by
  obtain ⟨_,open_,_⟩ := h
  cases open_ <;> simp [acc,Heard.push,Accumulation.push,Accumulation.opened]

theorem acc_say (before : List Content) (id : PartId) (text : String) (metadata : Option ProviderMetadata) :
    (h.acc before id).after ((if h.text.isSome then [] else [.TextStart id metadata]) ++ [.text_delta id text]) =
      .ok ((h.say text metadata).acc before id) := by
  obtain ⟨front,open_,back⟩ := h
  cases open_ with
  | none =>
    have starts : (acc ⟨front,none,back⟩ before id).after [.TextStart id metadata] = _ :=
      (after_single ..).trans (Accumulation.opened_start (before ++ front) .text id metadata)
    have goes : (Accumulation.opened (before ++ front) .text id "" metadata []).after [.text_delta id text] = _ :=
      (after_single ..).trans (Accumulation.opened_delta .text text none)
    simp only [Option.isSome_none,Bool.false_eq_true,if_false]
    rw [Accumulation.after_append,starts]
    refine goes.trans ?_
    simp [say,acc]
  | some =>
    exact (after_single ..).trans (Accumulation.opened_delta .text text none)

def isBlockContent : Content → Bool
  | .Text .. | .File .. | .Source _ => true
  | _ => false

@[simp] theorem say_isSome (text : String) (metadata : Option ProviderMetadata) :
    (h.say text metadata).text.isSome = true := by
  unfold say
  split <;> rfl

@[simp] theorem push_isSome (c : Content) : (h.push c).text.isSome = h.text.isSome := by
  obtain ⟨_,open_,_⟩ := h
  cases open_ <;> rfl

end Heard

theorem retain_append (first second : List StreamPart) : ∀ seen, State.retain seen (first ++ second) =
    ((State.retain (State.retain seen first).1 second).1,
      (State.retain seen first).2 ++ (State.retain (State.retain seen first).1 second).2) := by
  induction first with
  | nil => exact fun _ => rfl
  | cons part _ ih =>
    intro seen
    cases part with
    | Source =>
      rw [cons_append,retain,retain]
      split <;> simp [ih]
    | _ => simp [retain,ih]

theorem retain_uncited {parts : List StreamPart} (uncited : ∀ part ∈ parts, ∀ source, part ≠ .Source source) :
    ∀ seen, State.retain seen parts = (seen,parts) := by
  induction parts with
  | nil => exact fun _ => rfl
  | cons part _ ih =>
    intro seen
    have others := ih (fun part mem => uncited part (by simp [mem])) seen
    cases part with
    | Source source => exact absurd rfl (uncited _ (by simp) source)
    | _ => simp [retain,others]

namespace Heard
variable {id : PartId}

/-- Content that has parts of its own, other than texts and reasoning. -/
def isShown : Content → Bool
  | .ToolCall _ | .ToolResult _ | .File .. | .Source _ | .Custom .. => true
  | _ => false

theorem content_heard {c : Content} (known : isShown c = true) (seen : List String) (h : Heard) (before : List Content) :
    (State.retain seen (content_parts c id)).1 = (hear (seen,h) c).1 ∧
      (h.acc before id).after (State.retain seen (content_parts c id)).2 = .ok ((hear (seen,h) c).2.acc before id) := by
  cases c with
  | Source source =>
    by_cases found : key source ∈ seen
    · simp [content_parts,retain,found,hear,Accumulation.after,pure,Except.pure]
    · refine ⟨by simp [content_parts,retain,found,hear],?_⟩
      have pushed : (h.acc before id).after [.Source source] = .ok ((h.push (.Source source)).acc before id) := by
        rw [← acc_push]
        rfl
      simpa [content_parts,retain,found,hear] using pushed
  | ToolCall | ToolResult | File | Custom =>
    refine ⟨rfl,?_⟩
    rw [hear,← acc_push]
    · rfl
    all_goals simp
  | _ => cases known

theorem contents_heard (id : PartId) (contents : List Content) (known : ∀ c ∈ contents, isShown c = true) : ∀ (seen : List String) (h : Heard)
    (before : List Content),
    (State.retain seen (contents.flatMap (content_parts · id))).1 = (contents.foldl hear (seen,h)).1 ∧
      (h.acc before id).after (State.retain seen (contents.flatMap (content_parts · id))).2 =
        .ok ((contents.foldl hear (seen,h)).2.acc before id) := by
  induction contents with
  | nil => exact fun _ _ _ => ⟨rfl,rfl⟩
  | cons c _ ih =>
    intro seen h before
    obtain ⟨keys,here⟩ := content_heard (known c (by simp)) seen h before
    rw [flatMap_cons,retain_append,foldl_cons]
    rcases after : hear (seen,h) c with ⟨seen',h'⟩
    rw [after] at keys here
    rw [keys]
    obtain ⟨later,others⟩ := ih (fun c mem => known c (by simp [mem])) seen' h' before
    refine ⟨later,?_⟩
    rw [Accumulation.after_append,here]
    exact others

theorem output_part_heard {c : Content} (known : isBlockContent c = true) (rest : List Content) (seen : List String) (h : Heard)
    (before : List Content) : ∃ parts,
    State.output_parts id h.text.isSome (c :: rest) =
      ((State.output_parts id (hear (seen,h) c).2.text.isSome rest).1,
        parts ++ (State.output_parts id (hear (seen,h) c).2.text.isSome rest).2) ∧
      (State.retain seen parts).1 = (hear (seen,h) c).1 ∧
      (h.acc before id).after (State.retain seen parts).2 = .ok ((hear (seen,h) c).2.acc before id) := by
  cases c with
  | Text text metadata =>
    have uncited : ∀ part ∈ (if h.text.isSome then [] else [StreamPart.TextStart id metadata]) ++ [.text_delta id text],
        ∀ source, part ≠ .Source source := by
      cases h.text.isSome <;> simp [StreamPart.text_delta]
    have shown := retain_uncited uncited seen
    refine ⟨(if h.text.isSome then [] else [.TextStart id metadata]) ++ [.text_delta id text],?_,by rw [shown]; rfl,?_⟩
    · simp [output_parts,hear]
    · rw [shown]
      exact acc_say h before id text metadata
  | File data media_type filename metadata =>
    obtain ⟨keys,here⟩ := content_heard (c := .File data media_type filename metadata) rfl seen h before
    exact ⟨_,by simp [output_parts,hear],keys,here⟩
  | Source source =>
    obtain ⟨keys,here⟩ := content_heard (c := .Source source) rfl seen h before
    refine ⟨_,?_,keys,here⟩
    have still : (hear (seen,h) (.Source source)).2.text.isSome = h.text.isSome := by
      rw [hear]
      split <;> simp
    simp [output_parts,still]
  | _ => cases known

theorem output_heard (id : PartId) (contents : List Content) (known : ∀ c ∈ contents, isBlockContent c = true) : ∀ (seen : List String) (h : Heard)
    (before : List Content),
    (State.output_parts id h.text.isSome contents).1 = (contents.foldl hear (seen,h)).2.text.isSome ∧
      (State.retain seen (State.output_parts id h.text.isSome contents).2).1 = (contents.foldl hear (seen,h)).1 ∧
      (h.acc before id).after (State.retain seen (State.output_parts id h.text.isSome contents).2).2 =
        .ok ((contents.foldl hear (seen,h)).2.acc before id) := by
  induction contents with
  | nil => exact fun _ _ _ => ⟨rfl,rfl,rfl⟩
  | cons c rest ih =>
    intro seen h before
    obtain ⟨_,split,keys,here⟩ := output_part_heard (known c (by simp)) rest seen h before
    rcases after : hear (seen,h) c with ⟨seen',h'⟩
    rw [after] at split keys here
    obtain ⟨open_,later,others⟩ := ih (fun c mem => known c (by simp [mem])) seen' h' before
    rw [split,foldl_cons,after,retain_append,keys]
    refine ⟨open_,later,?_⟩
    rw [Accumulation.after_append,here]
    exact others

theorem hear_silent (contents : List Content) (silent : ∀ c ∈ contents, textOf c = none) : ∀ (seen : List String) (h : Heard),
    (contents.foldl hear (seen,h)).2.text = h.text := by
  induction contents with
  | nil => exact fun _ _ => rfl
  | cons c _ ih =>
    intro seen h
    rw [foldl_cons]
    refine (ih (fun c mem => silent c (by simp [mem])) _ _).trans ?_
    have first := silent c (by simp)
    have pushed (c : Content) : (h.push c).text = h.text := by
      unfold push
      split <;> simp_all
    cases c with
    | Text => cases first
    | Source source =>
      show (hear (seen,h) (.Source source)).2.text = h.text
      rw [hear]
      split
      · rfl
      · exact pushed _
    | _ => exact pushed _

theorem Tells.acc {h : Heard} {text : String} {others : List Content} {found : List Source} (tells : Tells h text others found)
    (closed : h.text = none) (before : List Content) : h.acc before id = ⟨before ++ h.content,.empty⟩ := by
  obtain ⟨_,open_,back⟩ := h
  obtain rfl : open_ = none := closed
  obtain rfl : back = [] := tells.waits rfl
  simp [Heard.acc,content]

end Heard

end Ferrin.Google.Interactions

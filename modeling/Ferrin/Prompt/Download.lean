import Ferrin.Library.TaskPool
import Ferrin.Library.Trim
import Ferrin.Prompt.Files

/-!
The downloads of a conversion. A URL is asked for once, by its first place in the
history, and downloaded where the model does not support it there; so a later
place with another media type may keep a URL that the model does not support
(`unsupported_urls_inlined`).
-/
namespace Ferrin.Prompt
open Ferrin.TaskPool List

/-! ### Supported URLs -/

/-- Patterns by media type prefix; the patterns themselves are matched outside. -/
structure SupportedUrls (ρ : Type) where
  entries : List (String × List ρ)
  is_match : ρ → String → Bool

/-- `replacen('*', "", 1)`. -/
def withoutStar : List Char → List Char
  | [] => []
  | c :: rest => if c = '*' then rest else c :: withoutStar rest

def SupportedUrls.supports {ρ : Type} (supported : SupportedUrls ρ) (media_type : MediaType) (url : String) : Bool :=
  let url := String.ofList (url.toList.map Char.toLower)
  let media_type := (Trim.trim isBlank media_type.toList).map Char.toLower
  (supported.entries.filter fun entry =>
      let stem := if entry.1 = "*" ∨ entry.1 = "*/*" then [] else withoutStar entry.1.toList
      stem.isEmpty ||
        if '/' ∈ media_type then stem.isPrefixOf media_type else media_type ++ ['/'] == stem).any fun entry =>
    entry.2.any (supported.is_match · url)

structure DownloadRequest where
  url : String
  is_url_supported_by_model : Bool

def DEFAULT_MAX_PARALLEL_DOWNLOADS : Nat := 8

structure Download where
  pool : Pool (Nat × String)
  results : List (Option DownloadedFile)

def tasks (requests : List DownloadRequest) : List (Nat × String) :=
  requests.zipIdx.filterMap fun (request,index) =>
    if request.is_url_supported_by_model then none else some (index,request.url)

section
variable (fetch_one : String → Except Error DownloadedFile)

def Download.join_next (d : Download) (place : Nat) : Option (Except Error Download) :=
  d.pool.running[place]?.map fun task =>
    match fetch_one task.2 with
    | .error error => .error error
    | .ok file => .ok ⟨(d.pool.remove place task).spawn,d.results.set task.1 (some file)⟩

def Download.join_all (d : Download) : List Nat → Option (Except Error (List (Option DownloadedFile)))
  | [] => if d.pool.is_idle then some (.ok d.results) else none
  | place :: order =>
    match d.join_next fetch_one place with
    | none => none
    | some (.error error) => some (.error error)
    | some (.ok next) => next.join_all order

def download (requests : List DownloadRequest) (order : List Nat) :
    Option (Except Error (List (Option DownloadedFile))) :=
  Download.join_all fetch_one
    ⟨(Pool.start (tasks requests)).fill DEFAULT_MAX_PARALLEL_DOWNLOADS,requests.map fun _ => none⟩ order

end

def ToolResultPart.files (result : ToolResultPart) : List (FileData × MediaType) :=
  match result.output with
  | .Content value => value.filterMap fun
      | .File data media_type _ _ => some (data,media_type)
      | _ => none
  | _ => []

def AssistantPart.as_tool_result : AssistantPart → Option ToolResultPart
  | .ToolResult part => some part
  | _ => none

def user_file : UserPart → Option (FileSource × MediaType)
  | .Text _ => none
  | .Image image => some (image.image,image.media_type.getD "image/*")
  | .File file => some (file.data,file.media_type)

def message_files : Message → List (FileSource × MediaType)
  | .System _ _ => []
  | .User (.Text _) _ => []
  | .User (.Parts parts) _ => parts.filterMap user_file
  | .Assistant content _ => ((content.as_parts.filterMap AssistantPart.as_tool_result).flatMap ToolResultPart.files).map
      fun file => (.from_data file.1,file.2)
  | .Tool content _ => ((content.filterMap ToolPart.as_tool_result).flatMap ToolResultPart.files).map
      fun file => (.from_data file.1,file.2)

/-- The files of users and results, in order. -/
def files (messages : List Message) : List (FileSource × MediaType) := messages.flatMap message_files

def as_url : FileSource → Option String
  | .Url url => some url
  | _ => none

def targets (messages : List Message) : List (String × MediaType) :=
  (files messages).filterMap fun file => (as_url file.1).map fun url => (url,file.2)

def requests_for {ρ : Type} (parsers : FileParsers) (supported : SupportedUrls ρ) (downloaded : List (String × DownloadedFile)) :
    List String → List (String × MediaType) → List DownloadRequest
  | _, [] => []
  | seen, (url,media_type) :: rest =>
    if parsers.is_data_url url ∨ (downloaded.lookup url).isSome ∨ url ∈ seen then
      requests_for parsers supported downloaded seen rest
    else ⟨url,supported.supports media_type url⟩ :: requests_for parsers supported downloaded (url :: seen) rest

abbrev DownloadCache := List (String × DownloadedFile)

def extend (cache : DownloadCache) (entries : List (String × DownloadedFile)) : DownloadCache :=
  entries.foldl (fun cache entry => Assoc.put cache entry.1 entry.2) cache

/-- `download_files` with the default downloader, and the cache after it; no cache is a call without one. -/
def download_files {ρ : Type} (parsers : FileParsers) (supported : SupportedUrls ρ)
    (fetch_one : String → Except Error DownloadedFile) (order : List Nat) (cache : Option DownloadCache)
    (messages : List Message) : Option (Except Error (DownloadCache × Option DownloadCache)) :=
  let downloaded := cache.getD []
  let requests := requests_for parsers supported downloaded [] (targets messages)
  if requests.all (·.is_url_supported_by_model) then some (.ok (downloaded,cache))
  else
    (download fetch_one requests order).map fun results => do
      let results ← results
      let named := ((requests.map (·.url)).zip results).filterMap fun (url,file) => file.map fun file => (url,file)
      let downloaded := extend downloaded named
      return (downloaded,cache.map (extend · downloaded))

def convert_to_prompt_with {ρ : Type} (parsers : FileParsers) (supported : SupportedUrls ρ)
    (fetch_one : String → Except Error DownloadedFile) (order : List Nat) (cache : Option DownloadCache)
    (system : Prompt) (messages : List Message) : Option (Except Error (Prompt × Option DownloadCache)) :=
  (download_files parsers supported fetch_one order cache messages).map fun downloads => do
    let (downloaded,cache) ← downloads
    return (← convert_to_prompt (fileContext parsers downloaded) system messages,cache)

section
variable {fetch_one : String → Except Error DownloadedFile} {requests : List DownloadRequest}

theorem mem_tasks {task : Nat × String} : task ∈ tasks requests ↔
    ∃ request : DownloadRequest, requests[task.1]? = some request ∧ request.is_url_supported_by_model = false ∧ request.url = task.2 := by
  simp only [tasks,mem_filterMap,Prod.exists,mem_zipIdx_iff_getElem?]
  constructor
  · rintro ⟨request,_,here,taken⟩
    split_ifs at taken with supported
    cases taken
    exact ⟨request,here,by simpa using supported,rfl⟩
  · rintro ⟨request,here,supported,same⟩
    exact ⟨request,task.1,here,by rw [if_neg (by simp [supported]),same]⟩

structure Fetched (fetch_one : String → Except Error DownloadedFile) (requests : List DownloadRequest) (d : Download) : Prop where
  pool : Sound DEFAULT_MAX_PARALLEL_DOWNLOADS (tasks requests) d.pool
  length : d.results.length = requests.length
  own : ∀ (i : Nat) (file : DownloadedFile), d.results[i]? = some (some file) → ∃ request : DownloadRequest, requests[i]? = some request ∧
    request.is_url_supported_by_model = false ∧ fetch_one request.url = .ok file
  ended : ∀ task ∈ d.pool.finished, ∃ file, d.results[task.1]? = some (some file)

theorem fetched_start : Fetched fetch_one requests
    ⟨(Pool.start (tasks requests)).fill DEFAULT_MAX_PARALLEL_DOWNLOADS,requests.map fun _ => none⟩ := by
  have nothing (room : Nat) : ∀ pool : Pool (Nat × String), (pool.fill room).finished = pool.finished := by
    induction room with
    | zero => intro pool; rfl
    | succ _ ih =>
      intro pool
      rw [Pool.fill,ih,Pool.spawn]
      split <;> rfl
  refine ⟨(filling_start _ _).fill,by simp,fun i file here => ?_,fun task mem => ?_⟩
  · have mem := mem_of_getElem? here
    simp at mem
  · rw [nothing] at mem
    cases mem

theorem finished_spawn (pool : Pool (Nat × String)) : pool.spawn.finished = pool.finished := by
  unfold Pool.spawn
  split <;> rfl

theorem Fetched.join_next {d next : Download} {place : Nat} (fetched : Fetched fetch_one requests d)
    (took : d.join_next fetch_one place = some (.ok next)) : Fetched fetch_one requests next := by
  obtain ⟨task,running,took⟩ := Option.map_eq_some_iff.mp took
  cases got : fetch_one task.2 with
  | error => simp [got] at took
  | ok file =>
    rw [got] at took
    cases took
    obtain ⟨_,same,perm⟩ := fetched.pool.once
    have isTask : task ∈ tasks requests := by
      rw [← same]
      refine mem_append_left _ (perm.mem_iff.mpr (mem_append_right _ ?_))
      exact mem_of_getElem? running
    obtain ⟨request,here,supported,url⟩ := mem_tasks.mp isTask
    have inside : task.1 < d.results.length := by
      rw [fetched.length]
      exact (List.getElem?_eq_some_iff.mp here).1
    refine ⟨fetched.pool.remove_spawn running,by simpa using fetched.length,fun i other there => ?_,fun other mem => ?_⟩
    · rw [getElem?_set] at there
      split_ifs at there with sameIndex
      · cases there
        subst sameIndex
        exact ⟨request,here,supported,url ▸ got⟩
      · exact fetched.own i other there
    · simp only [finished_spawn,Pool.remove,mem_append,mem_singleton] at mem
      rw [getElem?_set]
      split_ifs with sameIndex
      · exact ⟨file,rfl⟩
      · rcases mem with before | rfl
        · exact fetched.ended other before
        · exact absurd rfl sameIndex

theorem Fetched.join_all {order : List Nat} : ∀ {d : Download} {results : List (Option DownloadedFile)},
    Fetched fetch_one requests d → d.join_all fetch_one order = some (.ok results) →
      ∃ pool, Fetched fetch_one requests ⟨pool,results⟩ ∧ pool.is_idle = true := by
  induction order with
  | nil =>
    intro d results fetched done
    rw [Download.join_all] at done
    split_ifs at done with idle
    cases done
    exact ⟨d.pool,fetched,idle⟩
  | cons _ _ ih =>
    intro d results fetched done
    rw [Download.join_all] at done
    split at done
    · cases done
    · cases done
    case h_3 next took => exact ih (fetched.join_next took) done

theorem download_spec {order : List Nat} {results : List (Option DownloadedFile)}
    (done : download fetch_one requests order = some (.ok results)) {url : String} {file : DownloadedFile} :
    ((url,some file) ∈ (requests.map (·.url)).zip results → ⟨url,false⟩ ∈ requests ∧ fetch_one url = .ok file) ∧
      (⟨url,false⟩ ∈ requests → ∃ file, (url,some file) ∈ (requests.map (·.url)).zip results) := by
  obtain ⟨pool,fetched,idle⟩ := fetched_start.join_all done
  obtain ⟨_,perm⟩ := fetched.pool.idle (by decide) idle
  constructor
  · intro mem
    obtain ⟨i,inside,here⟩ := getElem_of_mem mem
    have inZip := List.getElem?_eq_some_iff.mpr ⟨inside,here⟩
    rw [getElem?_zip_eq_some,getElem?_map] at inZip
    obtain ⟨named,result⟩ := inZip
    obtain ⟨request,there,rfl⟩ := Option.map_eq_some_iff.mp named
    obtain ⟨_,same,supported,got⟩ := fetched.own i file result
    cases there.symm.trans same
    refine ⟨?_,got⟩
    have shape : request = ⟨request.url,false⟩ := by rw [← supported]
    rw [← shape]
    exact mem_of_getElem? there
  · intro mem
    obtain ⟨i,inside,here⟩ := getElem_of_mem mem
    have there := List.getElem?_eq_some_iff.mpr ⟨inside,here⟩
    have isTask : (i,url) ∈ tasks requests := mem_tasks.mpr ⟨_,there,rfl,rfl⟩
    obtain ⟨file,result⟩ := fetched.ended _ (perm.mem_iff.mpr isTask)
    refine ⟨file,mem_of_getElem? (i := i) ?_⟩
    rw [getElem?_zip_eq_some,getElem?_map,there]
    exact ⟨rfl,result⟩

end

section
variable {ρ : Type} {parsers : FileParsers} {supported : SupportedUrls ρ}

theorem mem_requests_for {downloaded : List (String × DownloadedFile)} {url : String} {flag : Bool}
    (wanted : List (String × MediaType)) : ∀ seen : List String,
      ⟨url,flag⟩ ∈ requests_for parsers supported downloaded seen wanted ↔
        parsers.is_data_url url = false ∧ downloaded.lookup url = none ∧ url ∉ seen ∧
          ∃ first, wanted.lookup url = some first ∧ flag = supported.supports first url := by
  induction wanted with
  | nil => intro seen; simp [requests_for]
  | cons target _ ih =>
    intro seen
    obtain ⟨_,_⟩ := target
    rw [requests_for,Assoc.lookup_entry]
    split_ifs with skipped same same
    · rw [ih]
      subst same
      refine iff_of_false ?_ ?_
      · rintro ⟨plain,absent,fresh,_⟩
        simp [plain,absent,fresh] at skipped
      · rintro ⟨plain,absent,fresh,_⟩
        simp [plain,absent,fresh] at skipped
    · exact ih seen
    · subst same
      simp only [mem_cons,ih,DownloadRequest.mk.injEq,true_and,Option.some.injEq,exists_eq_left']
      simp only [not_or,Bool.not_eq_true,Option.isSome_eq_false_iff,Option.isNone_iff_eq_none] at skipped
      simp [skipped]
    · simp [ih,same]

theorem mem_extend {entry : String × DownloadedFile} (entries : List (String × DownloadedFile)) :
    ∀ {cache : DownloadCache}, entry ∈ extend cache entries → entry ∈ entries ∨ entry ∈ cache := by
  induction entries with
  | nil => intro cache mem; exact .inr mem
  | cons first _ ih =>
    intro cache mem
    rcases @ih (Assoc.put cache first.1 first.2) mem with later | before
    · exact .inl (mem_cons_of_mem _ later)
    · rcases List.mem_cons.mp before with rfl | kept
      · exact .inl mem_cons_self
      · exact .inr (List.mem_filter.mp kept).1

theorem lookup_extend_none (entries : List (String × DownloadedFile)) {url : String} : ∀ {cache : DownloadCache},
    (extend cache entries).lookup url = none ↔ cache.lookup url = none ∧ ∀ file, (url,file) ∉ entries := by
  induction entries with
  | nil => intro cache; simp [extend]
  | cons entry _ ih =>
    intro cache
    refine (@ih (Assoc.put cache entry.1 entry.2)).trans ?_
    rw [Assoc.lookup_put]
    split_ifs with same
    · refine iff_of_false (by simp) fun ⟨_,others⟩ => others entry.2 ?_
      rw [same]
      exact mem_cons_self
    · have apart (file : DownloadedFile) : (url,file) ≠ entry := by
        rintro rfl
        exact same rfl
      simp [apart]

/-- The downloads of a history: what was in the cache or has just been fetched, and what is left out. -/
theorem download_files_spec {fetch_one : String → Except Error DownloadedFile} {order : List Nat}
    {cache cache' : Option DownloadCache} {messages : List Message} {downloaded : DownloadCache}
    (done : download_files parsers supported fetch_one order cache messages = some (.ok (downloaded,cache'))) :
    (∀ entry ∈ downloaded, entry ∈ cache.getD [] ∨ fetch_one entry.1 = .ok entry.2) ∧
      (∀ entry ∈ cache'.getD [], entry ∈ cache.getD [] ∨ fetch_one entry.1 = .ok entry.2) ∧
      ∀ url first, (targets messages).lookup url = some first → parsers.is_data_url url = false →
        (downloaded.lookup url = none ↔ (cache.getD []).lookup url = none ∧ supported.supports first url = true) := by
  generalize asked : requests_for parsers supported (cache.getD []) [] (targets messages) = requests at done
  have request (url : String) (flag : Bool) := @mem_requests_for ρ parsers supported (cache.getD []) url flag (targets messages) []
  rw [asked] at request
  rw [download_files] at done
  simp only [asked] at done
  split_ifs at done with all_supported
  · cases done
    refine ⟨fun entry => .inl,fun entry => .inl,fun url first found plain => ⟨fun absent => ⟨absent,?_⟩,And.left⟩⟩
    have mem := (request url _).mpr ⟨plain,absent,not_mem_nil,first,found,rfl⟩
    exact List.all_eq_true.mp all_supported _ mem
  · obtain ⟨_,ran,bound⟩ := Option.map_eq_some_iff.mp done
    obtain ⟨results,rfl,bound⟩ := Result.bind_ok.mp bound
    cases bound
    have named {url : String} {file : DownloadedFile} : (url,file) ∈ ((requests.map (·.url)).zip results).filterMap
        (fun entry => entry.2.map fun file => (entry.1,file)) ↔ (url,some file) ∈ (requests.map (·.url)).zip results := by
      simp only [mem_filterMap,Option.map_eq_some_iff,Prod.mk.injEq,Prod.exists]
      constructor
      · rintro ⟨_,_,mem,_,rfl,rfl,rfl⟩
        exact mem
      · exact fun mem => ⟨_,_,mem,_,rfl,rfl,rfl⟩
    have own (entry : String × DownloadedFile) (mem : entry ∈ extend (cache.getD [])
        (((requests.map (·.url)).zip results).filterMap fun entry => entry.2.map fun file => (entry.1,file))) :
        entry ∈ cache.getD [] ∨ fetch_one entry.1 = .ok entry.2 := by
      rcases mem_extend _ mem with inside | before
      · exact .inr ((download_spec ran).1 (named.mp inside)).2
      · exact .inl before
    refine ⟨own,fun entry mem => ?_,fun url first found plain => ?_⟩
    · cases cache with
      | none => cases mem
      | some =>
        rcases mem_extend _ mem with inside | before
        · exact own entry inside
        · exact .inl before
    · rw [lookup_extend_none]
      refine and_congr_right fun absent => ?_
      simp only [named]
      constructor
      · intro nothing
        by_contra unsupported
        have mem := (request url false).mpr ⟨plain,absent,not_mem_nil,first,found,by simpa using unsupported⟩
        obtain ⟨file,inside⟩ := (@download_spec _ _ _ _ ran url ⟨[],none⟩).2 mem
        exact nothing file inside
      · intro served file inside
        obtain ⟨_,_,_,_,again,flag⟩ := (request url false).mp ((download_spec ran).1 inside).1
        cases found.symm.trans again
        rw [served] at flag
        cases flag

end

end Ferrin.Prompt

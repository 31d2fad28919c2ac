import Ferrin.Http.Multipart

/-!
What a reader of a multipart body takes its parts to be. A body is split at the
line breaks that the boundary follows; a part has header lines up to an empty one.
-/
namespace Ferrin.Multipart
open Encoded Splitting Delimiter List Quoted
open Option (bind_eq_bind bind_some elim_some)

/-! ### The reader -/

def delimiter (boundary : String) : List UInt8 := CRLF ++ (as_bytes "--" ++ as_bytes boundary)

def after (mark text : List UInt8) : Option (List UInt8) :=
  if mark <+: text then some (text.drop mark.length) else none

def header_lines : (fuel : Nat) → List UInt8 → Option (List (List UInt8) × List UInt8)
  | 0,_ => none
  | fuel + 1,text => do
    let i ← find CRLF text
    let rest := text.drop (i + 2)
    if i = 0 then some ([],rest)
    else
      let (lines,data) ← header_lines fuel rest
      some (text.take i :: lines,data)

structure Received where
  name : List UInt8
  file : Option (List UInt8 × List UInt8)
  data : List UInt8
  deriving DecidableEq

def quoted (text : List UInt8) : Option (List UInt8 × List UInt8) := Quoted.read 34 92 text

def read_disposition (line : List UInt8) : Option (List UInt8 × Option (List UInt8)) := do
  let text ← after (as_bytes "Content-Disposition: form-data; name=\"") line
  let (name,rest) ← quoted text
  if rest = [] then some (name,none)
  else
    let text ← after (as_bytes "; filename=\"") rest
    let (filename,rest) ← quoted text
    if rest = [] then some (name,some filename) else none

def read_part (section_bytes : List UInt8) : Option Received := do
  let text ← after CRLF section_bytes
  let (lines,data) ← header_lines text.length text
  match lines with
  | [disposition] =>
    match ← read_disposition disposition with
    | (name,none) => some ⟨name,none,data⟩
    | (_,some _) => none
  | [disposition,content_type] =>
    match ← read_disposition disposition with
    | (name,some filename) =>
      let media_type ← after (as_bytes "Content-Type: ") content_type
      some ⟨name,some (filename,media_type),data⟩
    | (_,none) => none
  | _ => none

def read_parts : List (List UInt8) → Option (List Received)
  | [] => none
  | [last] => if last = as_bytes "--\r\n" then some [] else none
  | first :: rest => do
    let part ← read_part first
    let parts ← read_parts rest
    some (part :: parts)

def decode (boundary : String) (encoded : List UInt8) : Option (List Received) :=
  match split (delimiter boundary) (CRLF ++ encoded) with
  | [] :: parts => read_parts parts
  | _ => none

def received (part : MultipartPart) : Received where
  name := utf8 (cleared part.name)
  file := part.file.map fun file =>
    (utf8 (cleared (file.1.getD "blob")),utf8 (cleared (file.2.getD "application/octet-stream")))
  data := part.content.getD []

/-- A line that ends where it should: nonempty, without a carriage return, and not begun as a boundary. -/
structure HeaderLine (line : List UInt8) : Prop where
  filled : line ≠ []
  unbroken : 13 ∉ line
  not_boundary : line.head? ≠ some 45

def writeLines (lines : List (List UInt8)) : List UInt8 := lines.flatMap (· ++ CRLF) ++ CRLF

def disposition (part : MultipartPart) : List UInt8 :=
  as_bytes "Content-Disposition: form-data; name=\"" ++ utf8 (escape_header_value part.name) ++ 34 ::
    part.file.elim [] fun file => as_bytes "; filename=\"" ++ utf8 (escape_header_value (file.1.getD "blob")) ++ [34]

def content_type (media_type : Option String) : List UInt8 :=
  as_bytes "Content-Type: " ++ utf8 (cleared (media_type.getD "application/octet-stream"))

def linesOf (part : MultipartPart) : List (List UInt8) :=
  disposition part :: part.file.elim [] fun file => [content_type file.2]

section
variable {part : MultipartPart} {boundary : String}

theorem crlf_borderless : Borderless CRLF := borderless_of_headed ⟨13,[10],rfl,by decide⟩

theorem file_header_eq (filename media_type : Option String) : file_header filename media_type =
    as_bytes "; filename=\"" ++ utf8 (escape_header_value (filename.getD "blob")) ++
      34 :: CRLF ++ content_type media_type := by
  have marks : as_bytes "\"\r\nContent-Type: " = 34 :: CRLF ++ as_bytes "Content-Type: " := by decide
  rw [file_header,marks,content_type]
  simp only [append_assoc,cons_append]

theorem part_header_eq : part_header boundary part =
    as_bytes "--" ++ as_bytes boundary ++ CRLF ++ writeLines (linesOf part) := by
  have first : as_bytes "\r\nContent-Disposition: form-data; name=\"" =
      CRLF ++ as_bytes "Content-Disposition: form-data; name=\"" := by decide
  have mark : as_bytes "\"" = [34] := by decide
  have last : as_bytes "\r\n\r\n" = CRLF ++ CRLF := by decide
  rw [part_header,first,mark,last]
  cases file : part.file with
  | none => simp [writeLines,linesOf,disposition,file]
  | some => simp [writeLines,linesOf,disposition,file,file_header_eq]

theorem cleared_unbroken {value : String} {ch : Char} (mem : ch ∈ cleared value) : ch ≠ '\r' ∧ ch ≠ '\n' := by
  have kept := (List.mem_filter.mp mem).2
  simpa using kept

theorem not_mem_utf8 {text : List Char} (unbroken : '\r' ∉ text) : 13 ∉ utf8 text := by
  intro mem
  obtain ⟨c,inside,same⟩ := mem_utf8 mem (by decide)
  have here : c = '\r' := Char.toNat_inj.mp same
  exact unbroken (here ▸ inside)

theorem escaped_unbroken (value : String) : '\r' ∉ escape_header_value value := by
  intro mem
  obtain ⟨_,inside,here⟩ := List.mem_flatMap.mp mem
  have kept := cleared_unbroken inside
  split at here
  · simp at here
  · split at here
    · simp at here
    · exact kept.1 (List.mem_singleton.mp here).symm

theorem headerLine_disposition : HeaderLine (disposition part) := by
  have begins : (disposition part).head? = some 67 := rfl
  refine ⟨fun none_there => by simp [none_there] at begins,?_,by simp [begins]⟩
  rw [disposition,mem_append,mem_append,mem_cons]
  rintro ((constant | name) | quote | file)
  · exact absurd constant (by decide)
  · exact not_mem_utf8 (escaped_unbroken _) name
  · cases quote
  · cases given : part.file with
    | none => simp [given] at file
    | some =>
      rw [given,elim_some,mem_append,mem_append] at file
      rcases file with (constant | name) | quote
      · exact absurd constant (by decide)
      · exact not_mem_utf8 (escaped_unbroken _) name
      · simp at quote

theorem headerLine_content_type (media_type : Option String) : HeaderLine (content_type media_type) := by
  have begins : (content_type media_type).head? = some 67 := rfl
  refine ⟨fun none_there => by simp [none_there] at begins,?_,by simp [begins]⟩
  rw [content_type,mem_append]
  rintro (constant | given)
  · exact absurd constant (by decide)
  · exact not_mem_utf8 (fun mem => (cleared_unbroken mem).1 rfl) given

theorem headerLine_linesOf {line : List UInt8} (mem : line ∈ linesOf part) : HeaderLine line := by
  rcases List.mem_cons.mp mem with rfl | other
  · exact headerLine_disposition
  · cases file : part.file with
    | none => simp [file] at other
    | some =>
      simp only [file,elim_some,mem_singleton] at other
      exact other ▸ headerLine_content_type _

theorem after_append (mark text : List UInt8) : after mark (mark ++ text) = some text := by
  rw [after,if_pos (prefix_append _ _),drop_left]

theorem header_lines_write {lines : List (List UInt8)} (sound : ∀ line ∈ lines, HeaderLine line) (data : List UInt8) :
    ∀ fuel, lines.length < fuel → header_lines fuel (writeLines lines ++ data) = some (lines,data) := by
  induction lines with
  | nil =>
    intro fuel enough
    obtain ⟨fuel,rfl⟩ := Nat.exists_eq_add_one_of_ne_zero (Nat.ne_of_gt enough)
    rfl
  | cons line rest ih =>
    intro fuel enough
    obtain ⟨fuel,rfl⟩ := Nat.exists_eq_add_one_of_ne_zero (Nat.ne_of_gt (Nat.zero_lt_of_lt enough))
    have here := sound line (by simp)
    have absent : ¬ CRLF <:+: line := fun inside => here.unbroken (inside.subset (by simp [CRLF]))
    have parted : writeLines (line :: rest) ++ data = line ++ CRLF ++ (writeLines rest ++ data) := by
      simp [writeLines]
    have place := find_part crlf_borderless (by simp [CRLF]) absent (writeLines rest ++ data)
    have nonempty : line.length ≠ 0 := by simpa using here.filled
    have before : (line ++ CRLF ++ (writeLines rest ++ data)).take line.length = line := by simp
    have beyond : (line ++ CRLF ++ (writeLines rest ++ data)).drop (line.length + 2) = writeLines rest ++ data := by
      have two : line.length + 2 = (line ++ CRLF).length := by simp [CRLF]
      rw [two,drop_left]
    have others := ih (fun l mem => sound l (by simp [mem])) fuel (by simpa using enough)
    rw [parted,header_lines,place,bind_eq_bind,bind_some]
    dsimp only
    rw [if_neg nonempty,beyond,others,before]
    rfl

theorem utf8_escape (value : String) :
    utf8 (escape_header_value value) = Quoted.write 34 92 (utf8 (cleared value)) := by
  rw [escape_header_value]
  induction cleared value with
  | nil => rfl
  | cons ch rest ih =>
    have parted : write 34 92 (utf8 (ch :: rest)) =
        write 34 92 (String.utf8EncodeChar ch) ++ write 34 92 (utf8 rest) := by
      rw [utf8_cons,write,flatMap_append]
      rfl
    rw [flatMap_cons,utf8_append,ih,parted]
    congr 1
    by_cases backslash : ch = '\\'
    · subst backslash
      decide
    by_cases quote : ch = '"'
    · subst quote
      decide
    have plain : ∀ b ∈ String.utf8EncodeChar ch, ¬ (b = 92 ∨ b = 34) := by
      rintro b mem (rfl | rfl)
      · exact backslash (Char.toNat_inj.mp (ascii_byte mem (by decide)).1)
      · exact quote (Char.toNat_inj.mp (ascii_byte mem (by decide)).1)
    have same : write 34 92 (String.utf8EncodeChar ch) = (String.utf8EncodeChar ch).flatMap fun b => [b] := by
      rw [write]
      exact flatMap_congr fun b mem => if_neg (plain b mem)
    rw [same,if_neg backslash,if_neg quote]
    simp

theorem quoted_escape (value : String) (rest : List UInt8) :
    quoted (utf8 (escape_header_value value) ++ 34 :: rest) = some (utf8 (cleared value),rest) := by
  rw [quoted,utf8_escape]
  exact read_write (by decide) _ _

theorem read_disposition_eq : read_disposition (disposition part) =
    some (utf8 (cleared part.name),part.file.map fun file => utf8 (cleared (file.1.getD "blob"))) := by
  rw [read_disposition,disposition,append_assoc,after_append,Option.bind_eq_bind,Option.bind_some,quoted_escape]
  cases part.file with
  | none => rfl
  | some given =>
    have filled : ∀ text, as_bytes "; filename=\"" ++ text ≠ [] := by
      intro text none_there
      exact absurd (List.append_eq_nil_iff.mp none_there).1 (by decide)
    dsimp only [elim_some,bind_eq_bind,bind_some]
    rw [append_assoc,if_neg (filled _),after_append,bind_some,quoted_escape]
    rfl

theorem read_part_eq : read_part (CRLF ++ writeLines (linesOf part) ++ part.content.getD []) = some (received part) := by
  have lines := header_lines_write (fun line => @headerLine_linesOf part line)
    (part.content.getD []) (writeLines (linesOf part) ++ part.content.getD []).length (by
      rw [writeLines,length_append,length_append,length_flatMap]
      have many : (linesOf part).length ≤ ((linesOf part).map fun line => (line ++ CRLF).length).sum := by
        induction linesOf part with
        | nil => exact Nat.zero_le _
        | cons =>
          rw [map_cons,sum_cons,length_cons,length_append]
          have two : CRLF.length = 2 := rfl
          omega
      have two : CRLF.length = 2 := rfl
      omega)
  rw [read_part,append_assoc,after_append,bind_eq_bind,bind_some,lines]
  cases file : part.file with
  | none => simp [linesOf,file,read_disposition_eq,received]
  | some => simp [linesOf,file,read_disposition_eq,received,content_type,after_append]

/-! ### No boundary in a header -/

theorem delimiter_eq (boundary : String) : delimiter boundary = 13 :: 10 :: 45 :: 45 :: as_bytes boundary := by
  have dashes : as_bytes "--" = [45,45] := by decide
  rw [delimiter,dashes]
  rfl

theorem delimiter_ne_nil (boundary : String) : delimiter boundary ≠ [] := by
  rw [delimiter_eq]
  exact cons_ne_nil _ _

theorem infix_unbroken {text rest : List UInt8} (unbroken : 13 ∉ text)
    (inside : delimiter boundary <:+: text ++ rest) : delimiter boundary <:+: rest := by
  induction text with
  | nil => exact inside
  | cons _ _ ih =>
    rcases List.infix_cons_iff.mp inside with here | later
    · rw [delimiter_eq] at here
      have same := (List.cons_prefix_cons.mp here).1
      exact absurd (same ▸ mem_cons_self) unbroken
    · exact ih (fun mem => unbroken (mem_cons_of_mem _ mem)) later

theorem infix_crlf {rest : List UInt8} (inside : delimiter boundary <:+: CRLF ++ rest) :
    45 :: 45 :: as_bytes boundary <+: rest ∨ delimiter boundary <:+: rest := by
  rcases List.infix_cons_iff.mp inside with here | later
  · rw [delimiter_eq] at here
    exact .inl (List.cons_prefix_cons.mp (List.cons_prefix_cons.mp here).2).2
  · exact .inr (@infix_unbroken boundary [10] rest (by decide) later)

theorem infix_lines {lines : List (List UInt8)} (sound : ∀ line ∈ lines, HeaderLine line) {data : List UInt8}
    (absent : ¬ as_bytes boundary <:+: data) : ¬ delimiter boundary <:+: CRLF ++ writeLines lines ++ data := by
  have dashed : ¬ 45 :: 45 :: as_bytes boundary <+: data := fun here =>
    absent (((suffix_cons 45 _).trans (suffix_cons 45 _)).isInfix.trans here.isInfix)
  have not_data : ¬ delimiter boundary <:+: data := by
    rw [delimiter_eq]
    intro inside
    exact absent ((suffix_append [13,10,45,45] _).isInfix.trans inside)
  induction lines with
  | nil =>
    intro inside
    have twice : CRLF ++ writeLines [] ++ data = CRLF ++ (CRLF ++ data) := by simp [writeLines]
    rw [twice] at inside
    rcases infix_crlf inside with begun | later
    · exact absurd (List.cons_prefix_cons.mp begun).1 (by decide)
    · rcases infix_crlf later with begun | within
      · exact dashed begun
      · exact not_data within
  | cons line rest ih =>
    intro inside
    have here := sound line (by simp)
    have parted : CRLF ++ writeLines (line :: rest) ++ data = CRLF ++ (line ++ (CRLF ++ writeLines rest ++ data)) := by
      simp [writeLines]
    rw [parted] at inside
    rcases infix_crlf inside with begun | later
    · cases text : line with
      | nil => exact here.filled text
      | cons =>
        rw [text,cons_append] at begun
        have same := (List.cons_prefix_cons.mp begun).1
        exact here.not_boundary (by rw [text,← same]; rfl)
    · exact ih (fun l mem => sound l (by simp [mem])) (infix_unbroken here.unbroken later)

/-- What stands between the boundaries. -/
def sectionsOf (parts : List MultipartPart) : List (List UInt8) :=
  (parts.map fun part => CRLF ++ writeLines (linesOf part) ++ part.content.getD []) ++ [as_bytes "--\r\n"]

theorem join_front (needle first : List UInt8) {rest : List (List UInt8)} (more : rest ≠ []) :
    join needle first rest = first ++ join needle [] rest := by
  cases rest with
  | nil => exact absurd rfl more
  | cons => simp [join]

theorem body_eq (parts : List MultipartPart) :
    CRLF ++ (body boundary parts ++ (as_bytes "--" ++ as_bytes boundary ++ as_bytes "--\r\n")) =
      join (delimiter boundary) [] (sectionsOf parts) := by
  induction parts with
  | nil => simp [body,sectionsOf,join,delimiter]
  | cons part rest ih =>
    have more : sectionsOf rest ≠ [] := by simp [sectionsOf]
    have here : sectionsOf (part :: rest) =
        (CRLF ++ writeLines (linesOf part) ++ part.content.getD []) :: sectionsOf rest := rfl
    rw [here,join,join_front _ _ more,← ih,body,flatMap_cons,part_header_eq,delimiter]
    simp [body]

theorem read_parts_eq (parts : List MultipartPart) : read_parts (sectionsOf parts) = some (parts.map received) := by
  induction parts with
  | nil => exact if_pos rfl
  | cons part rest ih =>
    have here : sectionsOf (part :: rest) =
        (CRLF ++ writeLines (linesOf part) ++ part.content.getD []) :: sectionsOf rest := rfl
    obtain ⟨_,_,more⟩ := exists_cons_of_ne_nil (l := sectionsOf rest) (by simp [sectionsOf])
    rw [more] at ih
    rw [here,more,read_parts,read_part_eq,ih]
    · rfl
    · exact cons_ne_nil _ _

theorem decode_body {parts : List MultipartPart} (borderless : Borderless (delimiter boundary))
    (absent : ∀ part ∈ parts, ¬ as_bytes boundary <:+: part.content.getD []) :
    decode boundary (body boundary parts ++ (as_bytes "--" ++ as_bytes boundary ++ as_bytes "--\r\n")) =
      some (parts.map received) := by
  have apart : ∀ text ∈ [] :: sectionsOf parts, ¬ delimiter boundary <:+: text := by
    intro text mem
    rcases List.mem_cons.mp mem with rfl | mem
    · exact fun inside => delimiter_ne_nil boundary (List.infix_nil.mp inside)
    rcases List.mem_append.mp mem with mem | mem
    · obtain ⟨part,there,rfl⟩ := List.mem_map.mp mem
      exact infix_lines (fun line => headerLine_linesOf) (absent part there)
    · rw [List.mem_singleton.mp mem]
      have last : as_bytes "--\r\n" = [45,45] ++ [13,10] := by decide
      intro inside
      rw [last] at inside
      have short := (infix_unbroken (by decide) inside).length_le
      simp [delimiter_eq] at short
  rw [decode,body_eq,split_join borderless (delimiter_ne_nil boundary) apart]
  exact read_parts_eq parts

/-- The stream of a form in memory yields the bytes of its encoding, and the announced length is theirs unless it
    overflows. When the boundary is not in the data and its delimiter does not overlap itself, which is so without a
    carriage return, a reader takes the body for the parts in order, their names without line breaks. -/
theorem multipart_round_trip (form : MultipartForm) (out : List UInt8) (encoded : form.encode = .ok out) :
    (∃ chunks : List (List UInt8), form.into_stream = chunks.map .ok ∧ chunks.flatten = out) ∧
    (out.length ≤ u64.MAX → form.content_length = some out.length) ∧
    (∀ n, form.content_length = some n → n = out.length) ∧
    ('\r' ∉ form.boundary.toList → Borderless (delimiter form.boundary)) ∧
    (Borderless (delimiter form.boundary) →
      (∀ part ∈ form.parts, ¬ as_bytes form.boundary <:+: part.content.getD []) →
      decode form.boundary out = some (form.parts.map received)) := by
  obtain ⟨buffered,rfl⟩ := encode_ok.mp encoded
  refine ⟨⟨_,into_stream_eq buffered,?_⟩,?_,?_,?_,?_⟩
  · rw [flatten_append,flatten_chunksOf]
    simp
  · intro fits
    rw [length_append,Nat.add_comm] at fits ⊢
    exact length_fits buffered _ fits
  · intro n announced
    rw [length_announced buffered _ n announced,length_append,Nat.add_comm]
  · intro unbroken
    rw [delimiter_eq]
    refine borderless_of_headed ⟨13,_,rfl,?_⟩
    simp only [mem_cons,not_or]
    exact ⟨by decide,by decide,by decide,not_mem_utf8 unbroken⟩
  · exact decode_body

end

def upload : MultipartForm := ⟨[.Field "purpose" "batch",.File "f\"\r\nX: 1" none (some "text/plain\r\n") [13,10,45,45]],"fixed"⟩

theorem multipart_round_trip_upload : ∃ out, upload.encode = .ok out ∧ upload.content_length = some out.length ∧
    decode "fixed" out = some [⟨as_bytes "purpose",none,as_bytes "batch"⟩,
      ⟨as_bytes "f\"X: 1",some (as_bytes "blob",as_bytes "text/plain"),[13,10,45,45]⟩] := by
  obtain ⟨out,encoded⟩ : ∃ out, upload.encode = .ok out := ⟨_,encode_ok.mpr ⟨by decide,rfl⟩⟩
  have trip := multipart_round_trip upload out encoded
  refine ⟨out,encoded,trip.2.1 ?_,?_⟩
  · rw [(encode_ok.mp encoded).2]
    decide +kernel
  · refine (trip.2.2.2.2 (trip.2.2.2.1 (by decide)) ?_).trans (by decide)
    decide

/-- A boundary with a line break may overlap itself: the end of a value and the next delimiter make another one. -/
theorem overlapping_boundary :
    ∃ out, (⟨[.Field "a" "y\r\n--x"],"x\r\n--x"⟩ : MultipartForm).encode = .ok out ∧
      ¬ as_bytes "x\r\n--x" <:+: as_bytes "y\r\n--x" ∧
      decode "x\r\n--x" out ≠ some [received (.Field "a" "y\r\n--x")] :=
  ⟨_,encode_ok.mpr ⟨by decide,rfl⟩,by decide,by decide⟩

end Ferrin.Multipart

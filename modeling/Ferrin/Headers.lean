import Mathlib.Data.List.Basic
import Mathlib.Data.List.Induction

/-!
Header maps and the helpers for outbound downloads. A header map is the list of
its entries with names in lower case, as `http::HeaderMap` holds them.
-/
namespace Ferrin
open List

def isNameChar (c : Char) : Bool := c.isAlphanum || "!#$%&'*+-.^_|~".toList.contains c || c.toNat = 0x60

/-- `HeaderName::from_bytes`. -/
def headerName (name : String) : Option String :=
  if name ≠ "" ∧ name.toList.all isNameChar then some (String.ofList (name.toList.map Char.toLower)) else none

/-- The bytes that both `HeaderValue::from_str` and `HeaderValue::to_str` take. -/
def isVisible (b : UInt8) : Bool := b = 9 || (32 ≤ b.toNat && b.toNat < 127)

structure Headers where
  entries : List (String × List UInt8)

def Headers.new : Headers := ⟨[]⟩

def Headers.get_str (h : Headers) (name : String) : Option (List UInt8) := do
  let name ← headerName name
  let value ← h.entries.lookup name
  if value.all isVisible then some value else none

def Headers.contains (h : Headers) (name : String) : Bool :=
  (headerName name).any fun name => (h.entries.lookup name).isSome

def Headers.remove (h : Headers) (name : String) : Headers :=
  match headerName name with
  | some name => ⟨h.entries.filter (·.1 ≠ name)⟩
  | none => h

/-- `Headers::with`: invalid pairs are skipped. -/
def Headers.with (h : Headers) (name : String) (value : List UInt8) : Headers :=
  match headerName name with
  | some name => if value.all isVisible then ⟨h.entries.filter (·.1 ≠ name) ++ [(name,value)]⟩ else h
  | none => h

def BLOCKED_DOWNLOAD_HEADERS : List String :=
  ["connection","keep-alive","te","trailer","transfer-encoding","upgrade","host","forwarded",
    "proxy-authorization","via","x-forwarded-for","x-forwarded-host","x-forwarded-proto","x-real-ip","metadata",
    "metadata-flavor","x-aws-ec2-metadata-token","x-metadata-token","cookie","set-cookie"]

def sanitize_download_headers (headers : Headers) : Headers := BLOCKED_DOWNLOAD_HEADERS.foldl Headers.remove headers

def publicNames : List String := ["user-agent","accept"]

def strip_to_public_headers (headers : Headers) : Headers :=
  publicNames.foldl (fun kept name =>
    match headers.get_str name with
    | some value => kept.with name value
    | none => kept) .new

/-- Headers that may leave the initial origin. -/
def PublicOnly (headers : Headers) : Prop := ∀ entry ∈ headers.entries, entry.1 ∈ publicNames

instance (headers : Headers) : Decidable (PublicOnly headers) := by unfold PublicOnly; infer_instance

def Without (names : List String) (headers : Headers) : Prop := ∀ entry ∈ headers.entries, entry.1 ∉ names

theorem Headers.remove_subset (h : Headers) (name : String) : (h.remove name).entries ⊆ h.entries := by
  unfold Headers.remove
  cases headerName name with
  | none => exact List.Subset.refl _
  | some => exact fun _ mem => mem_of_mem_filter mem

theorem Headers.remove_without {h : Headers} {name : String} (lower : headerName name = some name) :
    Without [name] (h.remove name) := by
  intro entry member
  simp [Headers.remove,lower] at member
  simpa using member.2

theorem sanitize_without (headers : Headers) :
    Without BLOCKED_DOWNLOAD_HEADERS (sanitize_download_headers headers) := by
  have lower : ∀ name ∈ BLOCKED_DOWNLOAD_HEADERS, headerName name = some name := by decide
  unfold sanitize_download_headers
  generalize BLOCKED_DOWNLOAD_HEADERS = names at lower
  induction names using reverseRecOn with
  | nil => intro entry _; exact not_mem_nil
  | append_singleton _ name ih =>
    intro entry mem
    rw [foldl_append] at mem
    have earlier := ih (fun n inside => lower n (mem_append_left _ inside)) entry (Headers.remove_subset _ _ mem)
    have last := Headers.remove_without (lower name (by simp)) entry mem
    simp only [mem_append,not_or]
    exact ⟨earlier,last⟩

theorem Headers.with_entries {h : Headers} {name : String} {value : List UInt8} (lower : headerName name = some name) :
    ∀ entry ∈ (h.with name value).entries, entry ∈ h.entries ∨ entry.1 = name := by
  intro entry mem
  simp only [Headers.with,lower] at mem
  split_ifs at mem with visible
  · rcases List.mem_append.mp mem with kept | new
    · exact .inl (mem_of_mem_filter kept)
    · exact .inr (by simp at new; simp [new])
  · exact .inl mem

theorem strip_publicOnly (headers : Headers) : PublicOnly (strip_to_public_headers headers) := by
  have lower : ∀ name ∈ publicNames, headerName name = some name := by decide
  have kept : ∀ names ⊆ publicNames, PublicOnly (names.foldl (fun kept name =>
      match headers.get_str name with
      | some value => kept.with name value
      | none => kept) .new) := by
    intro names
    induction names using reverseRecOn with
    | nil => intro _ entry mem; cases mem
    | append_singleton _ name ih =>
      intro inside entry mem
      rw [append_subset] at inside
      have isPublic : name ∈ publicNames := inside.2 (by simp)
      simp only [foldl_append,foldl_cons,foldl_nil] at mem
      cases found : headers.get_str name with
      | none =>
        rw [found] at mem
        exact ih inside.1 entry mem
      | some =>
        rw [found] at mem
        rcases Headers.with_entries (lower name isPublic) entry mem with earlier | new
        · exact ih inside.1 entry earlier
        · exact new ▸ isPublic
  exact kept publicNames (List.Subset.refl _)

end Ferrin

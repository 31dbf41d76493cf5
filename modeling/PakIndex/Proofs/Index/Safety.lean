import PakIndex.Proofs.Index.Use

/-!
# No input is read out of bounds

* `Index.BuildFailure`: how building may fail. A read or slice out of bounds is not among it, nor is
  a misuse of the index.
* `Index.NamesHeld`: the names that building asks for are in the pool, whether or not it succeeds.
* `Index.Answers`, `Index.Safe`: what uses of an index may come to.
* **`Index.build_safe`**: every byte sequence is either refused in one of these ways or has an index
  that stays safe however it is used.
-/

namespace PakIndex.Index

variable {s : Stream} {codec : Codec} {i : Index}

/-- Whether building an index may fail in a given way: the archive has an unsupported size, is
malformed or contradicts itself, or one of its payloads is broken and was to be validated. -/
def BuildFailure (options : Options) (s : Stream) (err : Error) : Prop :=
  err.class = .structural ∨ err.class = .crossValidation ∨ err = .fileTooSmall s.size ∨
    err = .fileTooLarge s.size ∨ options.init = .validate ∧ err.class = .diagnostic

/-- Whether every name that building asks for is in the pool: the name of each file that is listed,
also if another one takes its place or it is not accepted, all parts of the name, and the names in
the tree that any number of files has led to. -/
structure NamesHeld (policy : Policy) (codec : Codec) (s : Stream) (listing : Listing) : Prop where
  name : ∀ f ∈ listing.files.toList, listing.names.Holds f.name
  parts : ∀ f ∈ listing.files.toList, ∀ part ∈ listing.names.segments f.name,
    listing.names.Holds part
  tree : ∀ n t,
    acceptAll policy codec s (listing.files.toList.take n) (.ofNames listing.names) = .ok t →
      t.names = listing.names ∧ t.WellFormed

theorem namesHeld_of_survey {headers : Headers} {record : Trailer} {listing : Listing}
    (h : survey s = .ok (headers, record, listing)) (policy : Policy) (codec : Codec) :
    NamesHeld policy codec s listing := by
  have hlisted := (surveyed_of_ok h).listed
  refine ⟨fun f hf => (hlisted.files f hf).held, fun f hf part hpart =>
    NamePool.holds_of_mem_segments (hlisted.files f hf).held hpart, fun n t ht => ?_⟩
  obtain ⟨es, hes, rfl⟩ := acceptAll_eq_ok_iff.mp ht
  have hfiles : ∀ f ∈ listing.files.toList.take n, f.Sound listing.names := fun f hf =>
    hlisted.files f (List.mem_of_mem_take hf)
  have hsmall : listing.names.size < 2 ^ 32 :=
    lt_of_le_of_lt hlisted.names record.directorySize.toNat_lt
  exact ⟨Tree.names_insertAll _ _, (wellFormed_insertAll hsmall (accepted_sound hfiles hes).1).2⟩

/-- Whether a result may be the answer to a question about the file at a path: that the file is
missing exactly if it is not found, and otherwise only failures of some classes. -/
def Answers {α : Type} (i : Index) (path : String) (classes : List ErrorClass) :
    Except Error α → Prop
  | .ok _ => (i.find? path).isSome = true
  | .error err => err = .fileNotFound path ∧ i.find? path = none ∨
      err.class ∈ classes ∧ (i.find? path).isSome = true

/-- Whether all reads through an index are in bounds: the names of its entries and folders are in
its pool, and the ways in which uses that read may fail are neither failures of the stream nor
misuses. -/
structure Safe (codec : Codec) (s : Stream) (i : Index) : Prop where
  tree : i.tree.WellFormed
  names : ∀ p e, (p, e) ∈ i.tree.toList → i.tree.names.Holds e.name
  resolve : ∀ path, i.Answers path [.crossValidation] (i.resolve s path).1
  readStored : ∀ path, i.Answers path [.crossValidation] (i.readStored s path).1
  readContent : ∀ path,
    i.Answers path [.crossValidation, .diagnostic] (i.readContent codec s path).1
  validateAll : ∀ err, (i.validateAll codec s).1 = .error err →
    err.class ∈ [ErrorClass.crossValidation, .diagnostic]

theorem Coherent.safe (h : i.Coherent s) (codec : Codec) : i.Safe codec s where
  tree := h.tree
  names _ _ he := h.tree.holds_of_mem he
  resolve path := by
    rcases resolve_cases h path with ⟨hf, hr⟩ | ⟨e, hf, ⟨err, hr, hc, -⟩ | ⟨d, j, hr, -⟩⟩
    · rw [hr]
      exact .inl ⟨rfl, hf⟩
    · rw [hr]
      exact .inr ⟨by rw [hc]; decide, by rw [hf]; rfl⟩
    · rw [hr]
      show (i.find? path).isSome = true
      rw [hf]
      rfl
  readStored path := by
    rcases readStored_cases h path with ⟨hf, hr⟩ | ⟨e, hf, ⟨err, hr, hc⟩ | ⟨d, j, hr, -⟩⟩
    · rw [hr]
      exact .inl ⟨rfl, hf⟩
    · rw [hr]
      exact .inr ⟨by rw [hc]; decide, by rw [hf]; rfl⟩
    · rw [hr]
      show (i.find? path).isSome = true
      rw [hf]
      rfl
  readContent path := by
    rcases readContent_cases h codec path with ⟨hf, hr⟩ | ⟨e, hf, ⟨err, hr, hc⟩ | ⟨d, j, hr, -⟩⟩
    · rw [hr]
      exact .inl ⟨rfl, hf⟩
    · rw [hr]
      exact .inr ⟨by rw [hc]; decide, by rw [hf]; rfl⟩
    · rw [hr]
      have hfound : (i.find? path).isSome = true := by
        rw [hf]
        rfl
      cases hdec : e.decode codec (s.toList.field d.toNat e.compressedSize) with
      | ok content => exact hfound
      | error err =>
        refine .inr ⟨?_, hfound⟩
        rw [Entry.decode_error hdec]
        decide
  validateAll err he := by
    rcases (validateAll_spec h codec).2 err he with hc | hc <;> rw [hc] <;> decide

/-- **Every byte sequence is refused for a reason that lies in it, or it has an index that is safe
after any sequence of uses.** Once its directory is listed, no name is asked for that is not in the
pool, whatever becomes of its files. -/
theorem build_safe (options : Options) (codec : Codec) (s : Stream) (uses : List Use) :
    (∀ headers record listing, survey s = .ok (headers, record, listing) →
      NamesHeld ⟨options.init, headers.encryption, record.directoryOffset⟩ codec s listing) ∧
    match build options codec s with
    | .error err => BuildFailure options s err
    | .ok i => (i.useAll codec s uses).Safe codec s := by
  refine ⟨fun headers record listing h => namesHeld_of_survey h _ codec, ?_⟩
  cases h : build options codec s with
  | error err => exact build_failure h
  | ok i => exact ((build_coherent h).useAll codec uses).safe codec

end PakIndex.Index

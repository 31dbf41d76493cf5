import PakIndex.Proofs.Directory
import PakIndex.Proofs.Layout.ExtraField

/-!
# The time in an extra field

* `ExtraBlock.LastTime`: the time in the last block that carries one.
* `ExtraBlock.walk`: a walk along an extra field that cuts every number out where it stands.
* **`ExtraBlock.walk_eq`**: the walk finds what the blocks carry, and fails where they do not parse.
* **`ExtraBlock.walk_append`**: of two extra fields, one after the other, the later time counts.
* **`ExtraBlock.walk_grammar`**: which extra fields have a time, and which one; this is the time
  that a directory is listed with, and nothing outside the extra field is read for it.
-/

namespace PakIndex

open Bytes

namespace ExtraBlock

variable {extra more : Bytes} {blocks : List ExtraBlock} {b : ExtraBlock} {time : Option UInt64}

/-! ## The last time -/

/-- Whether a block carries a time: it has the id of such blocks and at least 16 bytes of data. -/
def CarriesTime (b : ExtraBlock) : Prop := b.id = 0x000a ∧ 16 ≤ b.data.length

/-- Whether a time is the one in the last block that carries one: the 64-bit number behind the
first eight bytes of its data. -/
inductive LastTime : List ExtraBlock → Option UInt64 → Prop
  | none {blocks : List ExtraBlock} (h : ∀ b ∈ blocks, ¬ b.CarriesTime) : LastTime blocks none
  | some {front back : List ExtraBlock} {b : ExtraBlock} {t : UInt64} (hb : b.CarriesTime)
    (hback : ∀ b ∈ back, ¬ b.CarriesTime) (ht : b.data.field 8 8 = le64 t) :
    LastTime (front ++ b :: back) (some t)

theorem hasTime_iff : b.hasTime = true ↔ b.CarriesTime := by
  rw [hasTime, Bool.and_eq_true, beq_iff_eq, decide_eq_true_iff]
  rfl

theorem modificationTime_singleton (b : ExtraBlock) :
    modificationTime [b] = if b.hasTime then some (b.data.u64At 8) else none := by
  cases h : b.hasTime <;> simp [modificationTime, h]

theorem modificationTime_append (xs ys : List ExtraBlock) :
    modificationTime (xs ++ ys) = (modificationTime ys).or (modificationTime xs) := by
  rw [modificationTime, List.filter_append, List.getLast?_append, Option.map_or]
  rfl

theorem modificationTime_cons (b : ExtraBlock) (blocks : List ExtraBlock) :
    modificationTime (b :: blocks) = (modificationTime blocks).or (modificationTime [b]) :=
  modificationTime_append [b] blocks

theorem modificationTime_eq_none (h : ∀ b ∈ blocks, ¬ b.CarriesTime) :
    modificationTime blocks = none := by
  have hfilter : blocks.filter hasTime = [] :=
    List.filter_eq_nil_iff.mpr fun b hb => hasTime_iff.not.mpr (h b hb)
  rw [modificationTime, hfilter]
  rfl

theorem LastTime.concat (h : LastTime blocks time) (hb : ¬ b.CarriesTime) :
    LastTime (blocks ++ [b]) time := by
  have hlast : ∀ back : List ExtraBlock, (∀ b ∈ back, ¬ b.CarriesTime) →
      ∀ b' ∈ back ++ [b], ¬ b'.CarriesTime := by
    intro back hback b' hb'
    rcases List.mem_append.mp hb' with hb' | hb'
    · exact hback b' hb'
    · rwa [List.mem_singleton.mp hb']
  obtain h | @⟨front, back, b₀, t, hb₀, hback, ht⟩ := h
  · exact .none (hlast _ h)
  · rw [List.append_assoc, List.cons_append]
    exact .some hb₀ (hlast back hback) ht

theorem LastTime.modificationTime_eq (h : LastTime blocks time) :
    modificationTime blocks = time := by
  obtain h | @⟨front, back, b, t, hb, hback, ht⟩ := h
  · exact modificationTime_eq_none h
  · have hfield : b.data.u64At 8 = t := by rw [Bytes.u64At, ht, ofNat_le64]
    rw [modificationTime_append, modificationTime_cons, modificationTime_eq_none hback,
      modificationTime_singleton, if_pos (hasTime_iff.mpr hb), hfield]
    rfl

theorem lastTime_modificationTime (blocks : List ExtraBlock) :
    LastTime blocks (modificationTime blocks) := by
  have hnil : ∀ b ∈ ([] : List ExtraBlock), ¬ b.CarriesTime := fun b hb =>
    absurd hb List.not_mem_nil
  -- From the last block on: it carries the time, or those in front of it do.
  induction blocks using List.reverseRecOn with
  | nil => exact .none hnil
  | append_singleton blocks b ih =>
    rw [modificationTime_append, modificationTime_singleton]
    by_cases hb : b.CarriesTime
    · rw [if_pos (hasTime_iff.mpr hb)]
      have hroom : 8 + 8 ≤ b.data.length := hb.2
      exact .some hb hnil (le64_u64At hroom).symm
    · rw [if_neg (hasTime_iff.not.mpr hb), Option.none_or]
      exact ih.concat hb

/-- **The time of blocks** is the one in the last block that carries one. -/
theorem lastTime_iff : LastTime blocks time ↔ modificationTime blocks = time :=
  ⟨LastTime.modificationTime_eq, fun h => h ▸ lastTime_modificationTime blocks⟩

/-! ## The walk -/

/-- Id and size of the data of the block at `pos`, once all of the block is seen to be there. -/
def headAt (extra : Bytes) (pos : Nat) : Except Error (UInt16 × Nat) := do
  if extra.length - pos < 4 then throw (.directoryCorrupt .truncatedBlock)
  let id := (← extra.cut pos 2).u16At 0
  let size := ((← extra.cut (pos + 2) 2).u16At 0).toNat
  if pos + 4 + size > extra.length then throw (.directoryCorrupt (.blockPastEnd id))
  return (id, size)

/-- The time of the block at `pos`, and `time` if it carries none. -/
def timeAt (extra : Bytes) (pos : Nat) (id : UInt16) (size : Nat) (time : Option UInt64) :
    Except Error (Option UInt64) :=
  if id = timesId ∧ 16 ≤ size then return some ((← extra.cut (pos + 4 + 8) 8).u64At 0)
  else return time

/-- The time that is found along the blocks of an extra field from `pos` on, where `time` was found
before. Every number is cut out of the extra field where it stands: outside of it there is nothing
to cut out, and the walk would end with `layoutCutShort`. -/
def walk (extra : Bytes) (pos : Nat) (time : Option UInt64) : Except Error (Option UInt64) :=
  if pos < extra.length then
    match headAt extra pos with
    | .error e => .error e
    | .ok (id, size) =>
      match timeAt extra pos id size time with
      | .error e => .error e
      | .ok time => walk extra (pos + 4 + size) time
  else .ok time
termination_by extra.length - pos

theorem parseAll_of_short {bs : Bytes} (hne : bs ≠ []) (h : bs.length < 4) :
    parseAll bs = .error (.directoryCorrupt .truncatedBlock) := by
  match bs with
  | [] => exact absurd rfl hne
  | [_] | [_, _] | [_, _, _] => rw [parseAll] <;> simp
  | _ :: _ :: _ :: _ :: _ => exact absurd h (by simp)

theorem parseAll_eq {bs : Bytes} (h : 4 ≤ bs.length) : parseAll bs =
    if bs.length < 4 + (bs.u16At 2).toNat then
      .error (.directoryCorrupt (.blockPastEnd (bs.u16At 0)))
    else (parseAll (bs.drop (4 + (bs.u16At 2).toNat))).map
      (⟨bs.u16At 0, bs.field 4 (bs.u16At 2).toNat⟩ :: ·) := by
  obtain ⟨i₀, i₁, s₀, s₁, rest, rfl⟩ : ∃ i₀ i₁ s₀ s₁ rest, bs = i₀ :: i₁ :: s₀ :: s₁ :: rest := by
    match bs with
    | i₀ :: i₁ :: s₀ :: s₁ :: rest => exact ⟨i₀, i₁, s₀, s₁, rest, rfl⟩
  have hid : u16At (i₀ :: i₁ :: s₀ :: s₁ :: rest) 0 = u16At [i₀, i₁] 0 := rfl
  have hsize : u16At (i₀ :: i₁ :: s₀ :: s₁ :: rest) 2 = u16At [s₀, s₁] 0 := rfl
  have hlen : (i₀ :: i₁ :: s₀ :: s₁ :: rest).length = rest.length + 4 := rfl
  rw [parseAll, hid, hsize, hlen]
  simp only [List.length_take]
  generalize (u16At [s₀, s₁] 0).toNat = size
  by_cases hroom : rest.length < size
  · rw [if_pos (by omega), if_pos (by omega)]
  · rw [if_neg (by omega), if_neg (by omega), Nat.add_comm 4]
    show _ = (parseAll (rest.drop size)).map (⟨u16At [i₀, i₁] 0, rest.take size⟩ :: ·)
    cases parseAll (rest.drop size) <;> rfl

theorem headAt_eq {pos : Nat} (h : pos + 4 ≤ extra.length) : headAt extra pos =
    if extra.length < pos + 4 + (extra.u16At (pos + 2)).toNat then
      .error (.directoryCorrupt (.blockPastEnd (extra.u16At pos)))
    else .ok (extra.u16At pos, (extra.u16At (pos + 2)).toNat) := by
  have hnumber : ∀ start, u16At (Bytes.field extra start 2) 0 = extra.u16At start := fun start => by
    rw [Bytes.u16At, field_field (by omega), Nat.add_zero, Bytes.u16At]
  rw [headAt, if_neg (by omega), cut_of_le (by omega), cut_of_le (by omega)]
  show (if extra.length < pos + 4 + (u16At (Bytes.field extra (pos + 2) 2) 0).toNat then _
    else _) = _
  rw [hnumber, hnumber]
  rfl

/-- **One block of the walk is one block of the parser.** -/
theorem parseAll_drop {pos : Nat} (h : pos < extra.length) : parseAll (extra.drop pos) =
    headAt extra pos >>= fun head => (parseAll (extra.drop (pos + 4 + head.2))).map
      (⟨head.1, extra.field (pos + 4) head.2⟩ :: ·) := by
  have hlen : (extra.drop pos).length = extra.length - pos := List.length_drop
  by_cases hshort : extra.length - pos < 4
  · have hne : extra.drop pos ≠ [] := List.ne_nil_of_length_pos (by omega)
    rw [parseAll_of_short hne (by omega), headAt, if_pos hshort]
    rfl
  · have hnumber : ∀ start, u16At (extra.drop pos) start = extra.u16At (pos + start) :=
      fun start => by rw [Bytes.u16At, field_drop, Bytes.u16At]
    rw [parseAll_eq (by omega), headAt_eq (by omega), hnumber, hnumber, hlen, Nat.add_zero]
    by_cases hend : extra.length < pos + 4 + (extra.u16At (pos + 2)).toNat
    · rw [if_pos (by omega), if_pos hend]
      rfl
    · rw [if_neg (by omega), if_neg hend, List.drop_drop, field_drop, ← Nat.add_assoc]
      rfl

theorem headAt_le {pos size : Nat} {id : UInt16} (h : headAt extra pos = .ok (id, size)) :
    pos + 4 + size ≤ extra.length := by
  by_cases hshort : extra.length - pos < 4
  · rw [headAt, if_pos hshort] at h
    cases h
  · rw [headAt_eq (by omega)] at h
    split_ifs at h with hend
    cases h
    omega

theorem timeAt_eq {pos size : Nat} {id : UInt16} (h : pos + 4 + size ≤ extra.length)
    (time : Option UInt64) : timeAt extra pos id size time =
      .ok ((modificationTime [⟨id, extra.field (pos + 4) size⟩]).or time) := by
  have hlen : (extra.field (pos + 4) size).length = size := by
    rw [length_field]
    omega
  have hcarries : (⟨id, extra.field (pos + 4) size⟩ : ExtraBlock).hasTime = true ↔
      id = timesId ∧ 16 ≤ size := by
    rw [hasTime_iff, CarriesTime, hlen]
    rfl
  rw [timeAt, modificationTime_singleton]
  by_cases hb : id = timesId ∧ 16 ≤ size
  · have hnumber : (Bytes.field extra (pos + 4 + 8) 8).u64At 0 =
        (extra.field (pos + 4) size).u64At 8 := by
      rw [Bytes.u64At, Bytes.u64At, field_field (by omega), field_field (by omega)]
    rw [if_pos hb, if_pos (hcarries.mpr hb), cut_of_le (by omega), ← hnumber]
    rfl
  · rw [if_neg hb, if_neg (hcarries.not.mpr hb)]
    rfl

/-- **The walk finds what the blocks carry** from where it starts, and fails where they do not
parse. -/
theorem walk_eq (extra : Bytes) (pos : Nat) (time : Option UInt64) : walk extra pos time =
    (parseAll (extra.drop pos)).map fun blocks => (modificationTime blocks).or time := by
  fun_induction walk extra pos time with
  | case1 pos time hpos e hhead =>
    rw [parseAll_drop hpos, hhead]
    rfl
  | case2 pos time hpos id size hhead e htime =>
    rw [timeAt_eq (headAt_le hhead)] at htime
    cases htime
  | case3 pos time hpos id size hhead time' htime ih =>
    rw [timeAt_eq (headAt_le hhead)] at htime
    cases htime
    rw [ih, parseAll_drop hpos, hhead]
    show _ = ((parseAll (extra.drop (pos + 4 + size))).map _).map _
    rw [map_map]
    congr 1
    funext blocks
    rw [Function.comp_apply, modificationTime_cons _ blocks, Option.or_assoc]
  | case4 pos time hpos =>
    rw [List.drop_eq_nil_of_le (Nat.not_lt.mp hpos), parseAll]
    rfl

/-! ## Extra fields -/

theorem walk_eq_ok_iff : walk extra 0 none = .ok time ↔
    ∃ blocks, ConsistsOf extra blocks ∧ LastTime blocks time := by
  rw [walk_eq, map_eq_ok_iff, List.drop_zero]
  simp only [Option.or_none, parseAll_eq_ok_iff, lastTime_iff]

theorem exists_walk_eq_ok_iff : (∃ time, walk extra 0 none = .ok time) ↔
    ∃ blocks, ConsistsOf extra blocks := by
  simp only [walk_eq_ok_iff, lastTime_iff]
  exact ⟨fun ⟨_, blocks, h, _⟩ => ⟨blocks, h⟩, fun ⟨blocks, h⟩ => ⟨_, blocks, h, rfl⟩⟩

/-- **Of two extra fields, one after the other,** the later time counts, and the second decides
whether they are read. -/
theorem walk_append (h : walk extra 0 none = .ok time) (more : Bytes) :
    walk (extra ++ more) 0 none = (walk more 0 none).map (·.or time) := by
  obtain ⟨blocks, ⟨rfl, hfits⟩, htime⟩ := walk_eq_ok_iff.mp h
  rw [walk_eq, walk_eq, List.drop_zero, List.drop_zero, parseAll_encodeAll_append hfits, map_map,
    map_map]
  congr 1
  funext later
  rw [Function.comp_apply, Function.comp_apply, modificationTime_append, lastTime_iff.mp htime,
    Option.or_none, Option.or_none]

theorem add_eq_walk {name : Bytes} {last : UInt8} (hlast : name.getLast? = some last)
    (hfile : isSeparator last = false) (l : Listing) (pos : Nat) (record : DirectoryRecord)
    (extra : Bytes) :
    l.add pos record name extra = (walk extra 0 none).map (l.push record name) := by
  rw [Listing.add, walk_eq, List.drop_zero]
  simp only [hlast, hfile, Bool.false_eq_true, if_false, Option.or_none]
  cases parseAll extra <;> rfl

/-- **The time in an extra field** is found in exactly those that are blocks, one after the other,
each with a 16-bit id, a 16-bit size and that many bytes of data: it is the one eight bytes into the
data of the last block that carries one, and none if there is no such block. Every other extra field
makes the directory corrupt. Nothing outside the extra field is read. Behind an extra field that is
read, another one decides whether both are read together, and its time counts, if it has one, before
that of the first. The walk finds what the parsed blocks carry, and a file is listed with it. -/
theorem walk_grammar (extra : Bytes) :
    walk extra 0 none = (parseAll extra).map modificationTime ∧
    (∀ time, walk extra 0 none = .ok time ↔
      ∃ blocks, ConsistsOf extra blocks ∧ LastTime blocks time) ∧
    ((∃ time, walk extra 0 none = .ok time) ↔ ∃ blocks, ConsistsOf extra blocks) ∧
    ((¬ ∃ blocks, ConsistsOf extra blocks) →
      ∃ fault, walk extra 0 none = .error (.directoryCorrupt fault)) ∧
    (∀ needed available, walk extra 0 none ≠ .error (.layoutCutShort needed available)) ∧
    (∀ time, walk extra 0 none = .ok time → ∀ more,
      walk (extra ++ more) 0 none = (walk more 0 none).map (·.or time)) ∧
    ∀ (l : Listing) pos record name last, name.getLast? = some last → isSeparator last = false →
      l.add pos record name extra = (walk extra 0 none).map (l.push record name) := by
  have herror : ∀ e, walk extra 0 none = .error e → ∃ fault, e = .directoryCorrupt fault := by
    intro e he
    rw [walk_eq, List.drop_zero, map_eq_error_iff] at he
    exact parseAll_error_eq he
  refine ⟨?_, fun time => walk_eq_ok_iff, exists_walk_eq_ok_iff, fun hnone => ?_,
    fun needed available he => ?_, fun time h more => walk_append h more,
    fun l pos record name last hlast hfile => add_eq_walk hlast hfile l pos record extra⟩
  · simp only [walk_eq, List.drop_zero, Option.or_none]
  · cases h : walk extra 0 none with
    | ok time => exact absurd (exists_walk_eq_ok_iff.mp ⟨time, h⟩) hnone
    | error e =>
      obtain ⟨fault, rfl⟩ := herror e h
      exact ⟨fault, rfl⟩
  · obtain ⟨fault, hfault⟩ := herror _ he
    cases hfault

/-- An extra field with a time, with a block that is too short for one and with an empty block, and
others that are put behind it: one with a time, and one that is cut short. -/
theorem walk_grammar_twice :
    let early : ExtraBlock := ⟨0x000a, List.replicate 8 1 ++ le64 0x01D9ABCD00000000⟩
    let late : ExtraBlock := ⟨0x000a, List.replicate 8 2 ++ le64 0x01DA000000000007 ++ [3, 4]⟩
    let extra := encodeAll [early, ⟨0x7075, []⟩, ⟨0x000a, List.replicate 15 5⟩]
    walk extra 0 none = .ok (some 0x01D9ABCD00000000) ∧
      walk (extra ++ encodeAll [late]) 0 none = .ok (some 0x01DA000000000007) ∧
      (∃ fault, walk (extra ++ [0x0A]) 0 none = .error (.directoryCorrupt fault)) ∧
      Listing.add {} 0 default [0x61] extra =
        .ok (Listing.push {} default [0x61] (some 0x01D9ABCD00000000)) := by
  intro early late extra
  have hearly : walk extra 0 none = .ok (some 0x01D9ABCD00000000) :=
    (walk_grammar extra).2.1 _ |>.mpr
      ⟨_, ⟨rfl, by simp [early, Fits]⟩, lastTime_iff.mpr (by decide +kernel)⟩
  have hlate : walk (encodeAll [late]) 0 none = .ok (some 0x01DA000000000007) :=
    (walk_grammar _).2.1 _ |>.mpr
      ⟨_, ⟨rfl, by simp [late, Fits]⟩, lastTime_iff.mpr (by decide +kernel)⟩
  have hshort : ¬ ∃ blocks, ConsistsOf [0x0A] blocks := by
    rintro ⟨blocks, hblocks⟩
    have h := parseAll_eq_ok_iff.mpr hblocks
    rw [parseAll_of_short (List.cons_ne_nil _ _) (by decide)] at h
    cases h
  obtain ⟨-, -, -, -, -, happend, hadd⟩ := walk_grammar extra
  refine ⟨hearly, ?_, ?_, ?_⟩
  · rw [happend _ hearly, hlate]
    rfl
  · obtain ⟨-, -, -, hcorrupt, -⟩ := walk_grammar [0x0A]
    obtain ⟨fault, hfault⟩ := hcorrupt hshort
    refine ⟨fault, ?_⟩
    rw [happend _ hearly, hfault]
    rfl
  · rw [hadd {} 0 default [0x61] 0x61 rfl (by decide), hearly]
    rfl

end ExtraBlock

end PakIndex

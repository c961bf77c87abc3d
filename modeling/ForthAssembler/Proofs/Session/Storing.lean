import ForthAssembler.Proofs.Assembler.Demand

/-! What a word does to the store: only a save that is accepted changes it. -/
namespace ForthAssembler

/-- A save: the state that is saved, and whether its latest word is to run. -/
structure Save where
  state : Assembler
  autorun : Bool

def Save.blob (save : Save) : List UInt8 :=
  Image.encode ⟨save.autorun, save.state.dictionary.head, save.state.dictionary.memory.allocated⟩

/-- The store after a save. -/
def Storage.keep (storage : Storage) (save : Save) : Storage :=
  .block storage.limit? (some save.blob)

namespace Assembler

/-- The save that a word asks for. -/
def request? (a : Assembler) (word : String) : Option Save :=
  match a.awaiting, a.mode with
  | .nothing, .interpret => (a.classify word).saveFlag?.map (Save.mk a)
  | _, _ => none

/-- The save that comes of a word, unless it is refused. -/
def save? (a : Assembler) (word : String) : Option Save :=
  match (Action.feed word).run a with
  | .ok _ _ => a.request? word
  | .error _ _ => none

/-- The store has taken the save, if there is one, and is as it was otherwise. -/
def Takes (a : Assembler) (save : Option Save) (a' : Assembler) : Prop :=
  a'.storage = save.toList.foldl Storage.keep a.storage ∧
    ∀ s ∈ save, ∀ n ∈ a.storage.limit?, s.blob.length ≤ n

/-- Only a word that asks for a save has the store written. -/
theorem stores_demand_iff (a : Assembler) (word : String) :
    (a.demand word).stores ↔ (a.request? word).isSome := by
  unfold demand request?
  cases a.awaiting with
  | nothing => cases hmode : a.mode <;> simp [Token.demand]
  | _ => simp

theorem takes_none {a a' : Assembler} (h : a'.storage = a.storage) : a.Takes none a' :=
  ⟨h, fun _ hs => by cases hs⟩

end Assembler

namespace Storage
variable {limit : Option Nat}

theorem limit?_keepAll (storage : Storage) (saves : List Save) :
    (saves.foldl keep storage).limit? = storage.limit? := by
  induction saves generalizing storage with
  | nil => rfl
  | cons save rest ih => exact ih (storage.keep save)

/-- Only the last save is kept. -/
theorem keepAll_block (content : Option (List UInt8)) (saves : List Save) :
    saves.foldl keep (.block limit content) =
      .block limit ((saves.getLast?.map Save.blob).or content) := by
  cases h : saves.getLast? with
  | none =>
    rw [List.getLast?_eq_none_iff.mp h]
    rfl
  | some save =>
    obtain ⟨front, rfl⟩ := List.getLast?_eq_some_iff.mp h
    rw [List.foldl_append, List.foldl_cons, List.foldl_nil, keep, limit?_keepAll]
    rfl

end Storage

namespace Action
open Assembler
variable {capacity : Capacity} {a : Assembler}

/-- Saving is refused only while a definition is open, or if the store does not take the block. Then
nothing changes. -/
theorem ensures_saveToStorage (autorun : Bool) :
    (saveToStorage autorun).Ensures
      (fun size a' => a.definition = none ∧ size = (Save.mk a autorun).blob.length ∧
        (∀ n ∈ a.storage.limit?, size ≤ n) ∧
        a' = { a with storage := a.storage.keep ⟨a, autorun⟩ })
      (fun e a' => a' = a ∧
        (a.definition = none →
          (∃ n ∈ a.storage.limit?, n < (Save.mk a autorun).blob.length ∧
            e = .outOfSpace (Save.mk a autorun).blob.length n) ∨
          ∃ reason, a.storage = .unusable reason) ∧
        (a.definition ≠ none → e = .definitionOpen)) a := by
  simp only [saveToStorage, save, ensures_bind, ensures_requireClosed, ensures_get, ensures_pure]
  refine ⟨fun hopen => ⟨trivial, fun hclosed => absurd hclosed hopen, fun _ => trivial⟩,
    fun hclosed => ?_⟩
  cases hstorage : a.storage with
  | unusable reason => simp [Storage.limit?, Storage.write, hclosed]
  | block limit content =>
    cases limit with
    | none => simp [Storage.limit?, Storage.write, Storage.keep, Save.blob, hclosed]
    | some n =>
      simp only [Storage.limit?, ensures_bind, ensures_ite, ensures_refuse]
      refine ⟨fun hlt => ⟨trivial, fun _ => .inl ⟨n, rfl, hlt, rfl⟩,
        fun hopen => absurd hclosed hopen⟩, fun hle => ?_⟩
      simp [Storage.write, Storage.keep, Storage.limit?, Save.blob, hclosed, Nat.le_of_not_lt hle]

theorem run_saveToStorage {limit : Option Nat} {content : Option (List UInt8)}
    (hstorage : a.storage = .block limit content) (autorun : Bool) :
    let blob := (Save.mk a autorun).blob
    (a.definition ≠ none → (saveToStorage autorun).run a = .error (.refused .definitionOpen) a) ∧
      (a.definition = none → ∀ n ∈ limit, n < blob.length →
        (saveToStorage autorun).run a = .error (.refused (.outOfSpace blob.length n)) a) ∧
      (a.definition = none → (∀ n ∈ limit, blob.length ≤ n) →
        (saveToStorage autorun).run a =
          .ok blob.length { a with storage := .block limit (some blob) }) := by
  have hlimit : a.storage.limit? = limit := by rw [hstorage, Storage.limit?]
  have hsave := ensures_saveToStorage (a := a) autorun
  rw [hlimit] at hsave
  obtain ⟨_, _, hrun, hclosed, rfl, hfits, rfl⟩ | ⟨e, _, hrun, rfl, hsize, hopen⟩ :=
    hsave.run_cases
  · refine ⟨fun hopen => absurd hclosed hopen,
      fun _ n hn hlt => absurd (hfits n hn) (Nat.not_le_of_lt hlt), fun _ _ => ?_⟩
    rw [hrun, Storage.keep, hlimit]
  · refine ⟨fun h => hopen h ▸ hrun, fun hclosed n hn hlt => ?_, fun hclosed hfits => ?_⟩
    · obtain ⟨m, hm, -, rfl⟩ | ⟨reason, hunusable⟩ := hsize hclosed
      · rw [hrun, Option.mem_unique hm hn]
      · cases hstorage.symm.trans hunusable
    · obtain ⟨m, hm, hlt, -⟩ | ⟨reason, hunusable⟩ := hsize hclosed
      · exact absurd (hfits m hm) (Nat.not_le_of_lt hlt)
      · cases hstorage.symm.trans hunusable

/-- A word that asks for a save is taken for one. -/
theorem exists_of_request? {word : String} {save : Save} (h : a.request? word = some save) :
    ∃ autorun, save = ⟨a, autorun⟩ ∧ (feed word).run a = (saveAndReport autorun).run a := by
  unfold request? at h
  split at h
  · rename_i hawaiting hmode
    obtain ⟨autorun, hflag, rfl⟩ := Option.map_eq_some_iff.mp h
    refine ⟨autorun, rfl, ?_⟩
    rw [run_feed_interpret hawaiting hmode]
    unfold Token.saveFlag? at hflag
    split at hflag
    · rename_i hclassify
      cases hflag
      rw [hclassify]
      rfl
    · rename_i hclassify
      cases hflag
      rw [hclassify]
      rfl
    · cases hflag
  · cases h

/-- A word that is accepted changes the store only if it asks for a save. -/
theorem takes_feed (word : String) :
    (feed word).Meets (fun _ a' => a.Takes (a.request? word) a') (fun _ _ => True) True a := by
  cases hrequest : a.request? word with
  | none =>
    apply (does_feed word).accepts.imp
    intro _ a' heffect
    have hstores : ¬ (a.demand word).stores := by simp [stores_demand_iff, hrequest]
    exact takes_none (heffect.change.storage hstores)
  | some save =>
    obtain ⟨autorun, rfl, hrun⟩ := exists_of_request? hrequest
    apply Meets.of_run_eq hrun
    rw [saveAndReport, meets_bind]
    apply (ensures_saveToStorage autorun).meets_ok
    rintro _ _ ⟨-, rfl, hfits, rfl⟩
    exact ⟨rfl, fun s hs => Option.some.inj hs ▸ hfits⟩

end Action
end ForthAssembler

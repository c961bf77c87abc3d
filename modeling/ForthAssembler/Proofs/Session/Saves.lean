import ForthAssembler.Proofs.Session.Completion
import ForthAssembler.Proofs.Session.RoundTrip
import ForthAssembler.Proofs.Session.Storing

/-! What the store keeps through a session is the last image that was saved into it. -/
namespace ForthAssembler
open Text

namespace Assembler

/-- The saves that come of words that are fed, each in its state. -/
def savesOf (fed : List (Assembler × String)) : List Save :=
  fed.flatMap fun (a, word) => (a.save? word).toList

@[simp] theorem savesOf_nil : savesOf [] = [] := rfl

@[simp] theorem savesOf_cons (a : Assembler) (word : String) (fed : List (Assembler × String)) :
    savesOf ((a, word) :: fed) = (a.save? word).toList ++ savesOf fed := rfl

@[simp] theorem savesOf_append (fed fed' : List (Assembler × String)) :
    savesOf (fed ++ fed') = savesOf fed ++ savesOf fed' := List.flatMap_append

end Assembler

namespace Operation
open Assembler

/-- The saves that come of an operation, the earliest first. -/
def saves (a : Assembler) : Operation → List Save
  | feed text => (a.save? text).toList
  | run input => savesOf (Session.fedLines false (lines input) a)
  | saveToStorage autorun =>
    match (Action.saveToStorage autorun).run a with
    | .ok _ _ => [⟨a, autorun⟩]
    | .error _ _ => []
  | _ => []

/-- The saves that come of some operations, the earliest first. -/
def savesAll : List Operation → Assembler → List Save
  | [], _ => []
  | operation :: rest, a => operation.saves a ++ savesAll rest (operation.settle a)

end Operation

theorem Operation.Ordinary.regular {operation : Operation} (h : operation.Ordinary) :
    operation.Regular := by
  cases operation <;> first | exact h.elim | trivial

/-- What is carried through a session over a store of some size. -/
structure Keeping (capacity : Capacity) (limit : Option Nat) (a : Assembler) : Prop
    extends Safe capacity a where
  reachable : Reachable a
  limit : a.storage.limit? = limit

/-- A save that has succeeded: no definition was open, and the block was large enough. -/
structure Save.Sound (capacity : Capacity) (limit : Option Nat) (save : Save) : Prop where
  reachable : Reachable save.state
  closed : save.state.definition = none
  size : save.state.dictionary.memory.size = capacity.bytes
  fits : ∀ n ∈ limit, save.blob.length ≤ n

theorem Reachable.ensures_perform {a : Assembler} (h : Reachable a) {operation : Operation}
    (hop : operation.Ordinary) :
    operation.perform.Ensures (fun _ => Reachable) (fun _ => Reachable) a := by
  obtain ⟨l, hl⟩ := h.exists_history
  have hsettle : Reachable (operation.settle a) := h.perform hop
  unfold Action.Ensures
  obtain ⟨reply, a', hrun, -⟩ | ⟨e, a', hrun, -⟩ :=
    (Operation.ensures_leads hl.follows hop).run_cases
  · simp only [Operation.settle, hrun] at hsettle
    rwa [hrun]
  · simp only [Operation.settle, hrun] at hsettle
    rwa [hrun]

/-- The same for what an operation performs. -/
theorem Reachable.ensures {α : Type} {a : Assembler} (h : Reachable a) {x : Action α}
    {operation : Operation} (hop : operation.Ordinary) {f : α → Reply}
    (hperform : operation.perform = f <$> x) :
    x.Ensures (fun _ => Reachable) (fun _ => Reachable) a := by
  have hensures := h.ensures_perform hop
  rwa [hperform, Action.ensures_map] at hensures

namespace Keeping
variable {capacity : Capacity} {limit : Option Nat} {a : Assembler}

theorem new (capacity : Capacity) (options : Options) (limit : Option Nat) :
    Keeping capacity limit (.new capacity options (.block limit none)) :=
  ⟨.new capacity options _, .start capacity options rfl, rfl⟩

/-- It is kept as long as the size of the store is, whatever else is known of the action. -/
theorem ensures {α : Type} (h : Keeping capacity limit a) {x : Action α}
    {ok : α → Assembler → Prop} {refused : Error → Assembler → Prop}
    (hsafe : x.Ensures (fun _ => Safe capacity) (fun _ => Safe capacity) a)
    (hreachable : x.Ensures (fun _ => Reachable) (fun _ => Reachable) a)
    (hx : x.Meets ok refused True a)
    (hok : ∀ v a', ok v a' → a'.storage.limit? = a.storage.limit?)
    (hrefused : ∀ e a', refused e a' → a'.storage.limit? = a.storage.limit?) :
    x.Ensures (fun v a' => Keeping capacity limit a' ∧ ok v a')
      (fun e a' => Keeping capacity limit a' ∧ refused e a') a := by
  refine (hx.and_ensures (Action.Meets.and_ensures hsafe hreachable)).mono ?_ ?_
  · intro v a' ⟨h', hsafe, hreachable⟩
    exact ⟨⟨hsafe, hreachable, (hok v a' h').trans h.limit⟩, h'⟩
  · intro e a' ⟨h', hsafe, hreachable⟩
    exact ⟨⟨hsafe, hreachable, (hrefused e a' h').trans h.limit⟩, h'⟩

/-- Besides, what a word does to the store is known. -/
theorem ensures_feed (h : Keeping capacity limit a) (word : String) :
    (Action.feed word).Ensures
      (fun _ a' => Keeping capacity limit a' ∧ a.Takes (a.request? word) a')
      (fun _ a' => Keeping capacity limit a' ∧ a'.storage = a.storage) a := by
  have hrefused : (Action.feed word).Meets (fun _ _ => True) (fun _ a' => a'.storage = a.storage)
      True a := (Action.does_feed word).refuses.mono (fun _ _ h' => h') (fun _ _ h' => h' ▸ rfl) id
  have htakes := (Action.takes_feed word).with_refused hrefused
  refine h.ensures ((Safe.session capacity).feed a word h.toSafe)
    (h.reachable.ensures (show (Operation.feed word).Ordinary from trivial) rfl) htakes ?_ ?_
  · intro _ a' h'
    rw [h'.1, Storage.limit?_keepAll]
  · intro _ a' h'
    rw [h']

theorem ensures_abort (h : Keeping capacity limit a) :
    Action.abort.Ensures (fun _ a' => Keeping capacity limit a' ∧ a'.storage = a.storage)
      (fun _ _ => False) a := by
  have hstorage : Action.abort.Meets (fun _ a' => a'.storage = a.storage)
      (fun _ a' => a'.storage = a.storage) True a :=
    Action.does_abort.keeps rfl fun _ hchange => hchange.storage id
  have hkept := h.ensures ((Safe.session capacity).abort a h.toSafe)
    (h.reachable.ensures (show Operation.abort.Ordinary from trivial) rfl) hstorage
    (fun _ _ h' => congrArg _ h') (fun _ _ h' => congrArg _ h')
  apply (Action.Meets.and_ensures hkept (Action.ensures_abort_revocable h.toRevocable)).mono
  · exact fun _ _ h' => h'.1
  · exact fun _ _ h' => h'.2

theorem ensures_finish (h : Keeping capacity limit a) :
    Action.finish.Ensures (fun _ a' => Keeping capacity limit a' ∧ a'.storage = a.storage)
      (fun _ a' => Keeping capacity limit a' ∧ a'.storage = a.storage) a := by
  have hstorage : Action.finish.Meets (fun _ a' => a'.storage = a.storage)
      (fun _ a' => a'.storage = a.storage) True a :=
    Action.does_finish.keeps rfl fun _ hchange => hchange.storage id
  refine h.ensures ((Safe.session capacity).finish a h.toSafe)
    (h.reachable.ensures (show Operation.finish.Ordinary from trivial) rfl) hstorage ?_ ?_
  · intro _ a' h'
    rw [h']
  · intro _ a' h'
    rw [h']

theorem session (capacity : Capacity) (limit : Option Nat) :
    Session.Invariant False (Keeping capacity limit) where
  feed := fun _ word h => (h.ensures_feed word).mono (fun _ _ h' => h'.1) (fun _ _ h' => h'.1)
  abort := fun _ h => h.ensures_abort.mono (fun _ _ h' => h'.1) (fun _ _ h' => h'.elim)
  finish := fun _ h => h.ensures_finish.mono (fun _ _ h' => h'.1) (fun _ _ h' => h'.1)

/-- A word is taken for a save only outside of definitions. -/
theorem sound_save? (h : Keeping capacity limit a) {word : String} :
    ∀ save ∈ a.save? word, save.Sound capacity limit := by
  intro save hsave
  unfold Assembler.save? at hsave
  split at hsave
  · rename_i outcome a' hrun
    have hfits := ((h.ensures_feed word).of_ok hrun).2.2 save hsave
    rw [h.limit] at hfits
    unfold Assembler.request? at hsave
    split at hsave
    · rename_i hmode
      obtain ⟨autorun, -, rfl⟩ := Option.map_eq_some_iff.mp hsave
      refine ⟨h.reachable, ?_, h.size, hfits⟩
      exact h.mode_eq_interpret_iff.mp hmode
    · cases hsave
  · cases hsave

end Keeping

namespace Session
open Assembler
variable {capacity : Capacity} {limit : Option Nat} {a : Assembler}

theorem storage_feed (h : Keeping capacity limit a) (word : String) :
    (feed a word).2.1.storage = (a.save? word).toList.foldl Storage.keep a.storage := by
  obtain ⟨outcome, b, hrun, -, hstorage, -⟩ | ⟨e, b, hrun, hb, hstorage⟩ :=
    (h.ensures_feed word).run_cases
  · simpa only [feed, Assembler.save?, hrun] using hstorage
  · obtain ⟨_, c, hrun', -, hstorage'⟩ := hb.ensures_abort.exists_run
    simp only [feed, Assembler.save?, hrun, hrun']
    exact hstorage'.trans hstorage

/-- Every word of the line does its part, up to one that is refused. -/
theorem storage_readWords (h : Keeping capacity limit a) (inComment : Bool)
    (words : List String) :
    (readWords inComment words a).assembler.storage =
        (savesOf (fedWords inComment words a)).foldl Storage.keep a.storage ∧
      ∀ save ∈ savesOf (fedWords inComment words a), save.Sound capacity limit := by
  induction words generalizing inComment a with
  | nil => simp [readWords, fedWords]
  | cons word rest ih =>
    rw [readWords, fedWords]
    split
    · exact ih h _
    split
    · exact ih h _
    split
    · simp
    · have hstorage := storage_feed h word
      have hnext := (Keeping.session capacity limit).stops_feed h word
      rcases hfeed : feed a word with ⟨exchange, a', next⟩
      rw [hfeed] at hstorage hnext
      cases next with
      | word =>
        obtain ⟨hlater, hsound⟩ := ih hnext false
        rw [savesOf_cons, List.foldl_append, ← hstorage]
        exact ⟨hlater, List.forall_mem_append.mpr ⟨by simpa using h.sound_save?, hsound⟩⟩
      | line =>
        rw [savesOf_cons, savesOf_nil, List.append_nil]
        exact ⟨hstorage, by simpa using h.sound_save?⟩
      | stop halt =>
        exact absurd (congrArg (·.2.2) hfeed)
          ((Keeping.session capacity limit).next_feed h word halt)

theorem storage_readLines (h : Keeping capacity limit a) (inComment : Bool)
    (lines : List (List UInt8)) :
    (readLines inComment lines a).assembler.storage =
        (savesOf (fedLines inComment lines a)).foldl Storage.keep a.storage ∧
      ∀ save ∈ savesOf (fedLines inComment lines a), save.Sound capacity limit := by
  induction lines generalizing inComment a with
  | nil => simp [readLines, fedLines]
  | cons line rest ih =>
    cases hline : ofUtf8? line with
    | none => simp [readLines, fedLines, hline]
    | some text =>
      have hinvariant := Keeping.session capacity limit
      have hhalt := hinvariant.halt_readWords h inComment (words text)
      have hwords := hinvariant.stops_readWords h inComment (words text)
      rw [hhalt] at hwords
      obtain ⟨hstorage, hsound⟩ := storage_readWords h inComment (words text)
      obtain ⟨hlater, hsound'⟩ := ih hwords (readWords inComment (words text) a).inComment
      simp only [readLines, fedLines, hline, hhalt, Option.isSome_none, Bool.false_eq_true,
        if_false]
      rw [savesOf_append, List.foldl_append, ← hstorage]
      exact ⟨hlater, List.forall_mem_append.mpr ⟨hsound, hsound'⟩⟩

theorem storage_finish (h : Keeping capacity limit a) : (finish a).2.2.storage = a.storage := by
  obtain ⟨outcome, b, hrun, -, hstorage⟩ | ⟨e, b, hrun, hb, hstorage⟩ := h.ensures_finish.run_cases
  · simpa only [finish, hrun] using hstorage
  · obtain ⟨_, c, hrun', -, hstorage'⟩ := hb.ensures_abort.exists_run
    simpa only [finish, hrun, hrun'] using hstorage'.trans hstorage

theorem storage_run (h : Keeping capacity limit a) (input : List UInt8) :
    (run a input).2.storage =
        (savesOf (fedLines false (lines input) a)).foldl Storage.keep a.storage ∧
      ∀ save ∈ savesOf (fedLines false (lines input) a), save.Sound capacity limit := by
  obtain ⟨hstorage, hsound⟩ := storage_readLines h false (lines input)
  have hlines := (Keeping.session capacity limit).stops_readLines h false (lines input)
  refine ⟨?_, hsound⟩
  unfold run
  dsimp only
  split
  · exact hstorage
  · rename_i hhalt
    rw [hhalt] at hlines
    exact (storage_finish hlines).trans hstorage

end Session

namespace Operation

/-- The operation has no part in what the store keeps. -/
def Aside : Operation → Prop
  | feed _ | run _ | saveToStorage _ | compile _ | close | load _ => False
  | _ => True

theorem not_stores_demand {operation : Operation} (haside : operation.Aside) (a : Assembler) :
    ¬ (operation.demand a).stores := by
  cases operation <;> first | exact id | exact haside.elim

theorem saves_eq_nil {operation : Operation} (haside : operation.Aside) (a : Assembler) :
    operation.saves a = [] := by
  cases operation <;> first | rfl | exact haside.elim

end Operation

namespace Keeping
variable {capacity : Capacity} {limit : Option Nat} {a : Assembler} {operation : Operation}

/-- The store has taken the saves that come of the operation, and none that are not sound. -/
theorem stores (h : Keeping capacity limit a) (hop : operation.Ordinary) :
    (operation.settle a).storage = (operation.saves a).foldl Storage.keep a.storage ∧
      ∀ save ∈ operation.saves a, save.Sound capacity limit := by
  by_cases haside : operation.Aside
  · rw [Operation.saves_eq_nil haside]
    refine ⟨?_, fun _ hsave => by cases hsave⟩
    have hrun (input : List UInt8) : operation ≠ .run input := by
      rintro rfl
      exact haside
    have hdrop : (operation.dropAwaiting a).storage = a.storage :=
      Operation.of_dropAwaiting (P := fun b => b.storage = a.storage) rfl rfl operation
    have hstorage : operation.perform.Meets (fun _ a' => a'.storage = a.storage)
        (fun _ a' => a'.storage = a.storage) True a :=
      (Operation.does_perform hrun).keeps hdrop fun _ hchange =>
        (hchange.storage (Operation.not_stores_demand haside a)).trans hdrop
    exact Operation.of_meets_settle (P := fun b => b.storage = a.storage) hstorage
      (h.violation?_eq_none hop.regular)
  · cases operation with
    | feed word =>
      refine ⟨?_, by simpa [Operation.saves] using h.sound_save?⟩
      obtain ⟨outcome, b, hrun, -, hstorage, -⟩ | ⟨e, b, hrun, -, hstorage⟩ :=
        (h.ensures_feed word).run_cases
      · rw [Operation.settle_of_ok (Operation.run_map_ok hrun)]
        simpa only [Operation.saves, Assembler.save?, hrun] using hstorage
      · rw [Operation.settle_of_error (Operation.run_map_error hrun)]
        simp only [Operation.saves, Assembler.save?, hrun]
        exact hstorage
    | run input =>
      obtain ⟨hstorage, hsound⟩ := Session.storage_run h input
      rw [Operation.settle_run]
      exact ⟨hstorage, hsound⟩
    | saveToStorage autorun =>
      obtain ⟨size, b, hrun, hclosed, rfl, hfits, rfl⟩ | ⟨e, b, hrun, rfl, -⟩ :=
        (Action.ensures_saveToStorage (a := a) autorun).run_cases
      · rw [Operation.settle_of_ok (Operation.run_map_ok hrun)]
        simp only [Operation.saves, hrun, List.mem_singleton, forall_eq]
        exact ⟨rfl, h.reachable, hclosed, h.size, h.limit ▸ hfits⟩
      · rw [Operation.settle_of_error (Operation.run_map_error hrun)]
        simp [Operation.saves, hrun]
    | compile token => exact hop.elim
    | close => exact hop.elim
    | load blob => exact hop.elim
    | _ => exact absurd trivial haside

theorem settle (h : Keeping capacity limit a) (hop : operation.Ordinary) :
    Keeping capacity limit (operation.settle a) := by
  refine ⟨h.toSafe.settle hop.regular, h.reachable.perform hop, ?_⟩
  rw [(h.stores hop).1, Storage.limit?_keepAll, h.limit]

/-- By induction on the operations: each finds the store as the last one has left it. -/
theorem storesAll (h : Keeping capacity limit a) {operations : List Operation}
    (hops : ∀ operation ∈ operations, operation.Ordinary) :
    Keeping capacity limit (Operation.settleAll operations a) ∧
      (Operation.settleAll operations a).storage =
        (Operation.savesAll operations a).foldl Storage.keep a.storage ∧
      ∀ save ∈ Operation.savesAll operations a, save.Sound capacity limit := by
  induction operations generalizing a with
  | nil => exact ⟨h, rfl, fun _ hsave => by cases hsave⟩
  | cons operation rest ih =>
    obtain ⟨hop, hrest⟩ := List.forall_mem_cons.mp hops
    obtain ⟨hstorage, hsound⟩ := h.stores hop
    obtain ⟨hkeeping, hlater, hsound'⟩ := ih (h.settle hop) hrest
    rw [Operation.savesAll, List.foldl_append, ← hstorage]
    exact ⟨hkeeping, hlater, List.forall_mem_append.mpr ⟨hsound, hsound'⟩⟩

end Keeping

namespace Save.Sound
variable {capacity : Capacity} {limit : Option Nat} {save : Save} {a : Assembler}

theorem run_save (h : save.Sound capacity limit) :
    (Action.save save.autorun).run save.state = .ok save.blob save.state := by
  obtain ⟨words, -, hholds⟩ := h.reachable.exists_holds h.closed
  obtain ⟨_, _, hrun, rfl, rfl⟩ := (hholds.ensures_save save.autorun).exists_run
  rw [hrun, Save.blob, hholds.allocated, hholds.head]

/-- What was saved can be loaded again by an assembler of the same size. -/
theorem exists_load (h : save.Sound capacity limit) (hclosed : a.definition = none)
    (hsize : a.dictionary.memory.size = capacity.bytes)
    (hstorage : a.storage = .block limit (some save.blob)) :
    ∃ b, Action.loadFromStorage.run a =
        .ok (if save.autorun then save.state.dictionary.latest?.map (·.code) else none) b ∧
      b.dictionary.memory.allocated = save.state.dictionary.memory.allocated ∧
      b.dictionary.head = save.state.dictionary.head := by
  obtain ⟨words, hlegal, hholds⟩ := h.reachable.exists_holds h.closed
  have hload : Action.loadFromStorage.run a = (Action.load save.blob).run a := by
    rw [Action.loadFromStorage, Action.run_get_bind, hstorage]
    rfl
  -- Loading is refused only for want of space, and the image comes from a memory of this size.
  have hfits : (Word.image words).length ≤ a.dictionary.memory.size := by
    rw [← hholds.here_eq, hsize, ← h.size]
    exact save.state.dictionary.memory.here_le
  rw [hload, Save.blob, hholds.allocated, hholds.head]
  obtain ⟨entry, b, hrun, -, -, d, halloc, hhead, -, rfl, rfl⟩ | ⟨e, b, -, -, hrefused⟩ :=
    (Action.ensures_load_image hlegal hholds.length_image_le save.autorun).run_cases
  · have hb : { a with dictionary := d, frames := [], mode := .interpret }.Holds words :=
      ⟨halloc, hhead, hclosed, rfl, rfl⟩
    exact ⟨_, by rw [hrun, hholds.latest?_eq hb], halloc, hhead⟩
  · exact absurd hfits (Nat.not_le_of_lt (hrefused hclosed).1)

end Save.Sound

namespace Operation

/-- After any operations on a store of one block, which at first is empty, the store has the last
save that came of them, if any, and it can be loaded wherever no definition is open. Another save is
refused only for an open definition or for its size, and then it does nothing. -/
theorem stores_last_save (capacity : Capacity) (options : Options) (limit : Option Nat)
    {operations : List Operation} (hops : ∀ operation ∈ operations, operation.Ordinary) :
    let start : Assembler := .new capacity options (.block limit none)
    let a := settleAll operations start
    let last := (savesAll operations start).getLast?
    a.storage = .block limit (last.map Save.blob) ∧
      (∀ save ∈ last,
        (Action.save save.autorun).run save.state = .ok save.blob save.state ∧
        (∀ n ∈ limit, save.blob.length ≤ n) ∧
        (a.definition = none → ∃ b, Action.loadFromStorage.run a =
            .ok (if save.autorun then save.state.dictionary.latest?.map (·.code) else none) b ∧
          b.dictionary.memory.allocated = save.state.dictionary.memory.allocated ∧
          b.dictionary.head = save.state.dictionary.head)) ∧
      ∀ autorun,
        let blob := (Save.mk a autorun).blob
        (a.definition ≠ none →
          (Action.saveToStorage autorun).run a = .error (.refused .definitionOpen) a) ∧
        (a.definition = none → ∀ n ∈ limit, n < blob.length →
          (Action.saveToStorage autorun).run a = .error (.refused (.outOfSpace blob.length n)) a) ∧
        (a.definition = none → (∀ n ∈ limit, blob.length ≤ n) →
          (Action.saveToStorage autorun).run a =
            .ok blob.length { a with storage := .block limit (some blob) }) := by
  intro start a last
  obtain ⟨hkeeping, hstorage, hsound⟩ := (Keeping.new capacity options limit).storesAll hops
  have hlast : a.storage = .block limit (last.map Save.blob) := by
    rw [hstorage]
    exact (Storage.keepAll_block none _).trans (by rw [Option.or_none])
  refine ⟨hlast, fun save hsave => ?_, fun autorun => ?_⟩
  · have hs : save.Sound capacity limit := hsound save (List.mem_of_getLast? hsave)
    refine ⟨hs.run_save, hs.fits, fun hclosed => hs.exists_load hclosed hkeeping.size ?_⟩
    rw [hlast, hsave]
    rfl
  · exact Action.run_saveToStorage hlast autorun

/-- One definition is saved. Two saves are refused for their size and one for an open definition,
and then all is dropped. -/
theorem stores_last_save_dropped :
    let start : Assembler := .new ⟨64, by decide, by decide⟩ {} (.block (some 20) none)
    let operations := [run ": A 1 ;\nSAVE : C 3 ;".toUTF8.toList, feed "SAVE", saveToStorage true,
      define "D", saveToStorage false, reset, defineVariable "V"]
    let a := settleAll operations start
    (∀ operation ∈ operations, operation.Ordinary) ∧
      a.storage = .block (some 20) (some [78, 52, 0, 0, 0, 8, 255, 255, 1, 65, 191, 0, 1, 240]) ∧
      ∃ b, Action.loadFromStorage.run a = .ok none b ∧
        b.dictionary.memory.allocated = [255, 255, 1, 65, 191, 0, 1, 240] := by
  intro start operations a
  have hops : ∀ operation ∈ operations, operation.Ordinary := by
    simp [operations, Ordinary]
  obtain ⟨-, hlast, -⟩ := stores_last_save ⟨64, by decide, by decide⟩ {} (some 20) hops
  have hsaved : (savesAll operations start).getLast?.map
      (fun save => (save.autorun, save.state.dictionary.memory.allocated)) =
        some (false, [255, 255, 1, 65, 191, 0, 1, 240]) := by decide +kernel
  obtain ⟨save, hsave, heq⟩ := Option.map_eq_some_iff.mp hsaved
  obtain ⟨hautorun, himage⟩ := Prod.mk.inj heq
  obtain ⟨b, hrun, halloc, -⟩ := (hlast save hsave).2.2 (by decide +kernel)
  refine ⟨hops, by decide +kernel, b, ?_, halloc.trans himage⟩
  rw [hrun, if_neg (by rw [hautorun]; decide)]

end Operation
end ForthAssembler

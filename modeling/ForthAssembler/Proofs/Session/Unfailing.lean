import ForthAssembler.Proofs.Dictionary.Linked
import ForthAssembler.Proofs.Session.Attains
import ForthAssembler.Proofs.Session.Steady

/-! No regular operation fails an assertion, whatever was loaded. -/
namespace ForthAssembler
open Assembler Instr

/-- Besides, the links of the dictionary lead strictly backwards. -/
structure Safe (capacity : Capacity) (a : Assembler) : Prop extends Steady capacity a where
  linked : a.dictionary.Linked

namespace Assembler
variable {older : List UInt8} {link : Link} {name : String} {a a' : Assembler}

theorem Defines.linked_iff {draft : Draft.Any Instr} (h : Defines id older link name draft a)
    (hlink : ∀ n ∈ link, n < older.length) :
    a.dictionary.Linked ↔ Chain.Linked (older ++ Cell.bytes link.cell) link :=
  Dictionary.linked_iff_of_header h.code.allocated h.head hlink

theorem Added.linked {body : List UInt8} (h : Added older link name body a)
    (hlink : ∀ n ∈ link, n < older.length)
    (holder : Chain.Linked (older ++ Cell.bytes link.cell) link) : a.dictionary.Linked :=
  (Dictionary.linked_iff_of_header h.allocated h.head hlink).mpr holder

theorem Continues.linked (h : Continues older link name a a')
    (hlink : ∀ n ∈ link, n < older.length)
    (holder : Chain.Linked (older ++ Cell.bytes link.cell) link) : a'.dictionary.Linked := by
  obtain ⟨draft, hdefines⟩ | ⟨-, -, -, body, hadded⟩ := h.outcome
  · exact (hdefines.linked_iff hlink).mpr holder
  · exact hadded.linked hlink holder

end Assembler

namespace Safe
variable {α : Type} {capacity : Capacity} {a a' s : Assembler} {demand : Demand}

theorem new (capacity : Capacity) (options : Options) (storage : Storage) :
    Safe capacity (.new capacity options storage) :=
  ⟨.new capacity options storage, Dictionary.linked_of_head_eq_none rfl⟩

theorem await (h : Safe capacity a) {awaiting : Awaiting} (hawaiting : awaiting ≠ .operand) :
    Safe capacity { a with awaiting } :=
  ⟨h.toSteady.await hawaiting, h.linked⟩

theorem head_lt (h : Safe capacity a) :
    ∀ n ∈ a.dictionary.head, n < a.dictionary.memory.allocated.length := by
  rw [Memory.length_allocated]
  exact h.head

theorem of_continues (h : Safe capacity a) {older : List UInt8} {link : Link} {name : String}
    {draft : Draft.Any Instr} (hdefines : a.Defines id older link name draft)
    (hlink : ∀ n ∈ link, n < older.length) (h' : Continues older link name a a') :
    Safe capacity a' :=
  ⟨h.toSteady.of_continues hlink h', h'.linked hlink ((hdefines.linked_iff hlink).mp h.linked)⟩

theorem linked_of_reverts (h : Safe capacity a) {d : Dictionary} (hreverts : a.Reverts d) :
    d.Linked := by
  unfold Reverts at hreverts
  split at hreverts
  · rw [hreverts]
    exact h.linked
  · rename_i definition hopen
    obtain ⟨older, draft, hdefines, hlink⟩ := h.opened definition hopen
    have haddress : definition.address = older.length :=
      congrArg Definition.address (Option.some.inj (hopen.symm.trans hdefines.definition))
    rw [haddress] at hreverts
    obtain ⟨d', htruncate, hhead, -, halloc⟩ := Dictionary.truncate_eq_ok
      (hdefines.code.allocated.trans (List.append_assoc _ _ _)) hlink
    obtain rfl := Except.ok.inj (hreverts.symm.trans htruncate)
    rw [Dictionary.Linked, halloc, hhead]
    exact (hdefines.linked_iff hlink).mp h.linked

/-- By cases on the change. -/
theorem change (h : Safe capacity a) (hchange : Change demand a a')
    (hcompiles : ¬ demand.compiles) (hliterals : a'.literals.length ≤ literalLimit)
    (hawaiting : a'.awaiting = .operand → a.awaiting = .operand) : Safe capacity a' where
  toSteady := h.toSteady.change hchange hcompiles hliterals hawaiting
  linked := by
    cases hchange with
    | beside => exact h.linked
    | configured => exact h.linked
    | stored => exact h.linked
    | compiled compiles => exact absurd compiles hcompiles
    | opened _ _ push => exact ((defines_of_push id push).linked_iff h.head_lt).mpr h.linked
    | closed compiles => exact absurd compiles hcompiles
    | dropped reverts => exact h.linked_of_reverts reverts
    | cleared => exact Dictionary.linked_of_head_eq_none rfl
    | added acquires =>
      obtain ⟨body, hadded⟩ := acquires.added
      exact hadded.linked h.head_lt h.linked
    | forgotten _ _ forget => exact (h.linked.forget h.head _ _).2 _ _ forget
    | loaded _ restore => exact Dictionary.linked_of_restore_eq_ok restore

theorem not_fault (h : Safe capacity a) (hcompiles : ¬ demand.compiles) (assertion : Assertion) :
    ¬ Fault demand a assertion := by
  intro hfault
  cases hfault with
  | compiling _ compiles => exact hcompiles compiles
  | closing compiles => exact hcompiles compiles
  | dropping isOpen truncate =>
    obtain ⟨d, hok⟩ := h.truncates isOpen
    cases hok.symm.trans truncate
  | forgetting _ _ forget => exact (h.linked.forget h.head _ _).1 _ forget

/-- What compiles nothing fails no assertion. -/
theorem ensures_of_does (h : Safe capacity s) {x : Action α} (hx : x.Does demand s a)
    (hdemand : demand.Interprets) :
    x.Ensures (fun _ => Safe capacity) (fun _ a' => a' = s) a := by
  rw [Action.ensures_iff_yields]
  apply Action.Yields.mono hx
  · rintro _ a' ⟨hliterals, hawaiting, hchange⟩
    refine h.change hchange hdemand.compiles ?_ fun hoperand => ?_
    · rw [hliterals]
      exact Move.length_kept_le h.literals _
    · rw [hawaiting] at hoperand
      cases hawaits : demand.awaits with
      | none => simpa [hawaits] using hoperand
      | some awaiting =>
        rw [hawaits, Option.getD_some] at hoperand
        exact absurd (hoperand ▸ hawaits) hdemand.awaits
  · rintro (e | assertion) a' hfailure
    · exact ⟨e, rfl, hfailure.refused e rfl⟩
    · exact absurd (hfailure.fault assertion rfl) (h.not_fault hdemand.compiles assertion)

/-- A word of input, by whether a definition is open. -/
theorem ensures_feed (h : Safe capacity a) (word : String) :
    (Action.feed word).Ensures (fun _ => Safe capacity)
      (fun _ a' => a' = { a with awaiting := .nothing }) a := by
  have hb : Safe capacity { a with awaiting := .nothing } := h.await (by simp)
  by_cases hclosed : a.definition = none
  · obtain ⟨-, hawaiting, hmode⟩ := h.closed hclosed
    exact hb.ensures_of_does (Action.does_feed word)
      (interprets_demand hclosed hmode hawaiting word)
  · obtain ⟨definition, hopen⟩ := Option.ne_none_iff_exists'.mp hclosed
    obtain ⟨older, draft, hdefines, hlink⟩ := h.opened definition hopen
    exact (Action.ensures_feed_opened hdefines word).imp fun _ _ => h.of_continues hdefines hlink

theorem ensures_finish (h : Safe capacity a) :
    Action.finish.Ensures (fun _ => Safe capacity)
      (fun _ a' => a' = { a with awaiting := .nothing }) a := by
  have hb : Safe capacity { a with awaiting := .nothing } := h.await (by simp)
  by_cases hclosed : a.definition = none
  · exact hb.ensures_of_does Action.does_finish ⟨not_not_intro hclosed, by simp⟩
  · obtain ⟨definition, hopen⟩ := Option.ne_none_iff_exists'.mp hclosed
    obtain ⟨older, draft, hdefines, hlink⟩ := h.opened definition hopen
    exact (Action.ensures_finish_opened hdefines).imp fun _ _ => h.of_continues hdefines hlink

/-- A session fails no assertion, since none of its words does. -/
theorem session (capacity : Capacity) : Session.Invariant False (Safe capacity) where
  feed := fun a word h => by
    apply (h.ensures_feed word).mono (fun _ _ h' => h')
    rintro _ _ rfl
    exact h.await (by simp)
  abort := fun a h => by
    apply (h.ensures_of_does Action.does_abort ⟨id, nofun⟩).mono (fun _ _ h' => h')
    rintro _ _ rfl
    exact h
  finish := fun a h => by
    apply h.ensures_finish.mono (fun _ _ h' => h')
    rintro _ _ rfl
    exact h.await (by simp)

theorem dropAwaiting (h : Safe capacity a) (operation : Operation) :
    Safe capacity (operation.dropAwaiting a) :=
  Operation.of_dropAwaiting h (h.await (by simp)) operation

/-- Besides words, runs and the end of the input, no regular operation compiles. -/
theorem ensures_perform (h : Safe capacity a) {operation : Operation} (hop : operation.Regular) :
    operation.perform.Ensures (fun _ => Safe capacity) (fun _ => Safe capacity) a := by
  have hdoes (hrun : ∀ input, operation ≠ .run input) (hdemand : (operation.demand a).Interprets) :
      operation.perform.Ensures (fun _ => Safe capacity) (fun _ => Safe capacity) a := by
    have hdrop := h.dropAwaiting operation
    apply (hdrop.ensures_of_does (Operation.does_perform hrun) hdemand).mono (fun _ _ h' => h')
    rintro _ _ rfl
    exact hdrop
  cases operation with
  | feed word => exact (Action.ensures_map _ _).mpr ((session capacity).feed a word h)
  | run input => exact (Action.ensures_map _ _).mpr ((session capacity).meets_session h input)
  | compile token => exact hop.elim
  | close => exact hop.elim
  | finish => exact (Action.ensures_map _ _).mpr ((session capacity).finish a h)
  | _ => exact hdoes nofun ⟨id, nofun⟩

theorem violation?_eq_none (h : Safe capacity a) {operation : Operation}
    (hop : operation.Regular) : operation.violation? a = none :=
  Operation.violation?_of_ensures (h.ensures_perform hop)

theorem settle (h : Safe capacity a) {operation : Operation} (hop : operation.Regular) :
    Safe capacity (operation.settle a) :=
  Operation.of_ensures_settle (h.ensures_perform hop)

end Safe

theorem Attains.safe {capacity : Capacity} {a b : Assembler} (h : Attains Operation.Regular a b)
    (ha : Safe capacity a) : Safe capacity b := by
  induction h with
  | refl => exact ha
  | perform _ hop _ ih => exact ih.settle hop

end ForthAssembler

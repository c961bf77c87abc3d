import ForthAssembler.Proofs.Session.Attains
import ForthAssembler.Proofs.Session.Runs
import ForthAssembler.Proofs.Session.Steps

/-! Every session is in step with the ledger of its history. -/
namespace ForthAssembler

/-- What ordinary operations keep, apart from runs, a run keeps. -/
theorem Session.Invariant.of_perform {P : Assembler → Prop}
    (hP : ∀ a (operation : Operation), P a → operation.Ordinary → operation.Single →
      operation.perform.Ensures (fun _ => P) (fun _ => P) a) :
    Session.Invariant False P where
  feed := fun a word h => by
    have hfeed := hP a (.feed word) h trivial trivial
    rwa [Operation.perform, Action.ensures_map] at hfeed
  abort := fun a h => by
    have habort := hP a .abort h trivial trivial
    rwa [Operation.perform, Action.ensures_map] at habort
  finish := fun a h => by
    have hfinish := hP a .finish h trivial trivial
    rwa [Operation.perform, Action.ensures_map] at hfinish

theorem Follows.new (capacity : Capacity) (options : Options) {storage : Storage}
    {stored : Option (List Word)} (hstored : Stores stored storage.content?) :
    Follows ⟨[], stored⟩ (.new capacity options storage) where
  sound := trivial
  closed := fun _ => ⟨Memory.allocated_blank capacity, rfl⟩
  mode := fun _ => rfl
  opened := nofun
  operand := nofun
  stores := hstored

/-- What one session has saved, another can load. -/
theorem Operation.ensures_load_saved {l m : Ledger} {a b b' : Assembler} (h : Follows l a)
    (h' : Follows m b) {autorun : Bool} {blob : List UInt8}
    (hsave : (Action.save autorun).run b = .ok blob b') :
    (load blob).perform.Ensures (fun _ a' => Follows ⟨m.words, l.stored⟩ a')
      (fun _ a' => Follows l a') a := by
  obtain ⟨-, hblob⟩ := (Action.ensures_save_follows h' autorun).of_ok hsave
  rw [perform, Action.ensures_map]
  exact Action.ensures_load_follows h hblob

namespace Leads
variable {a b : Assembler} {l m : Ledger}

theorem follows (h : Leads a l b m) (ha : Follows l a) : Follows m b := by
  induction h with
  | refl => exact ha
  | perform _ hop hsingle hok ih =>
    exact (Operation.ensures_perform_follows ih hop hsingle).of_ok hok
  | refuse _ hop hsingle hrefused ih =>
    exact (Operation.ensures_perform_follows ih hop hsingle).of_refused hrefused

theorem ensures_perform (h : Leads a l b m) (ha : Follows l a) (operation : Operation)
    (hop : operation.Ordinary) (hsingle : operation.Single) :
    operation.perform.Ensures (fun _ b' => ∃ m', Leads a l b' m')
      (fun _ b' => ∃ m', Leads a l b' m') b := by
  unfold Action.Ensures
  obtain ⟨reply, b', hrun, -⟩ | ⟨e, b', hrun, -⟩ :=
    (Operation.ensures_perform_follows (h.follows ha) hop hsingle).run_cases
  · rw [hrun]
    exact ⟨_, .perform h hop hsingle hrun⟩
  · rw [hrun]
    exact ⟨_, .refuse h hop hsingle hrun⟩

end Leads

theorem Session.invariant_leads {a : Assembler} {l : Ledger} (ha : Follows l a) :
    Session.Invariant False fun b => ∃ m, Leads a l b m :=
  .of_perform fun _ operation ⟨_, h⟩ => h.ensures_perform ha operation

namespace Operation
variable {a : Assembler} {operation : Operation}

/-- A session does to the words what single operations do. -/
theorem ensures_leads {l : Ledger} (ha : Follows l a) (hop : operation.Ordinary) :
    operation.perform.Ensures (fun _ a' => ∃ l', Leads a l a' l')
      (fun _ a' => ∃ l', Leads a l a' l') a := by
  cases operation with
  | run input =>
    rw [perform, Action.ensures_map]
    exact (Session.invariant_leads ha).meets_session ⟨l, .refl⟩ input
  | _ => exact Leads.refl.ensures_perform ha _ hop trivial

end Operation

namespace History
variable {a b : Assembler} {l m : Ledger}

/-- By induction on the history, as every operation keeps the assembler in step. -/
theorem follows (h : History a l) : Follows l a := by
  induction h with
  | start capacity options hempty => exact .new capacity options hempty
  | restart capacity options _ ih => exact .new capacity options ih.stores
  | leads _ hleads ih => exact hleads.follows ih
  | load _ _ hsave hok ih ih' => exact (Operation.ensures_load_saved ih ih' hsave).of_ok hok
  | refuseLoad _ _ hsave hrefused ih ih' =>
    exact (Operation.ensures_load_saved ih ih' hsave).of_refused hrefused

theorem ensures_load (h : History a l) (h' : History b m) {autorun : Bool} {blob : List UInt8}
    {b' : Assembler} (hsave : (Action.save autorun).run b = .ok blob b') :
    (Operation.load blob).perform.Ensures (fun _ a' => ∃ l', History a' l')
      (fun _ a' => ∃ l', History a' l') a := by
  unfold Action.Ensures
  obtain ⟨reply, a', hrun, -⟩ | ⟨e, a', hrun, -⟩ :=
    (Operation.ensures_load_saved h.follows h'.follows hsave).run_cases
  · rw [hrun]
    exact ⟨_, .load h h' hsave hrun⟩
  · rw [hrun]
    exact ⟨_, .refuseLoad h h' hsave hrun⟩

end History

namespace Reachable
variable {a : Assembler}

theorem exists_history (h : Reachable a) : ∃ l, History a l := by
  induction h with
  | start capacity options hempty => exact ⟨_, .start capacity options hempty⟩
  | restart capacity options _ ih =>
    obtain ⟨l, h⟩ := ih
    exact ⟨_, .restart capacity options h⟩
  | perform _ hop ih =>
    obtain ⟨l, h⟩ := ih
    obtain ⟨l', hleads⟩ := Operation.of_ensures_settle (Operation.ensures_leads h.follows hop)
    exact ⟨l', .leads h hleads⟩
  | load _ _ hsave ih ih' =>
    obtain ⟨l, h⟩ := ih
    obtain ⟨m, h'⟩ := ih'
    exact Operation.of_ensures_settle (h.ensures_load h' hsave)

end Reachable
end ForthAssembler

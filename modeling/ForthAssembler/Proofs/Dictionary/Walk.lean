import ForthAssembler.Dictionary.Basic
import Mathlib.Data.Option.Basic

/-! The walk along the links of a memory, whatever bytes it holds: each step goes to a smaller
offset, so the walk ends. -/
namespace ForthAssembler

namespace Entry

/-- Where the walk goes on: at the link if that points backwards, and else nowhere. -/
def older? (entry : Entry) : Link := entry.link.filter (· < entry.address)

theorem lt_of_mem_older? {entry : Entry} {next : Nat} (h : next ∈ entry.older?) :
    next < entry.address := by
  simpa using (Option.mem_filter_iff.mp h).2

end Entry

namespace Memory

/-- The entries that so many steps read, each step from where the last one left off. -/
def walk (m : Memory) : Nat → Link → List Entry
  | 0, _ => []
  | _ + 1, none => []
  | steps + 1, some address =>
    Entry.read m address :: m.walk steps (Entry.read m address).older?

variable {m : Memory} {address : Nat} {entry : Entry}

theorem entriesFrom_eq_cons (m : Memory) (address : Nat) :
    m.entriesFrom address =
      Entry.read m address :: (Entry.read m address).older?.elim [] m.entriesFrom := by
  have haddress : (Entry.read m address).address = address := rfl
  rw [entriesFrom, Entry.older?, haddress]
  cases (Entry.read m address).link with
  | none => rfl
  | some older =>
    by_cases hlt : older < address
    · simp [hlt, Option.filter]
    · simp [hlt, Option.filter]

/-- What holds where a walk ends, and wherever it holds at the next entry, holds from every offset
on. -/
theorem entriesFrom_induction {P : Nat → List Entry → Prop}
    (hlast : ∀ address, (Entry.read m address).older? = none → P address [Entry.read m address])
    (hnext : ∀ address next, (Entry.read m address).older? = some next →
      P next (m.entriesFrom next) → P address (Entry.read m address :: m.entriesFrom next)) :
    ∀ address, P address (m.entriesFrom address) := by
  intro address
  induction address using Nat.strongRecOn with
  | ind address ih =>
    rw [entriesFrom_eq_cons]
    cases holder : (Entry.read m address).older? with
    | none => exact hlast address holder
    | some next =>
      have hlt : next < address := Entry.lt_of_mem_older? holder
      exact hnext address next holder (ih next hlt)

/-- However many steps are taken, they read the first of the entries. -/
theorem walk_eq_take (m : Memory) (steps : Nat) (link : Link) :
    m.walk steps link = (link.elim [] m.entriesFrom).take steps := by
  induction steps generalizing link with
  | zero => rw [walk, List.take_zero]
  | succ steps ih =>
    cases link with
    | none => rfl
    | some address =>
      rw [walk, ih, Option.elim_some, entriesFrom_eq_cons m address, List.take_succ_cons]

/-- Each entry that is found has been read at its offset. -/
theorem eq_read_of_mem_entriesFrom (h : entry ∈ m.entriesFrom address) :
    entry.address ≤ address ∧ entry = Entry.read m entry.address := by
  refine entriesFrom_induction (P := fun address entries => ∀ entry ∈ entries,
    entry.address ≤ address ∧ entry = Entry.read m entry.address) ?_ ?_ address entry h
  · intro address _ entry h
    obtain rfl := List.mem_singleton.mp h
    exact ⟨Nat.le_refl address, rfl⟩
  · intro address next holder ih entry h
    have hlt : next < address := Entry.lt_of_mem_older? holder
    rcases List.mem_cons.mp h with rfl | h
    · exact ⟨Nat.le_refl address, rfl⟩
    · obtain ⟨hle, hread⟩ := ih entry h
      exact ⟨Nat.le_trans hle (Nat.le_of_lt hlt), hread⟩

theorem pairwise_entriesFrom (m : Memory) (address : Nat) :
    (m.entriesFrom address).Pairwise fun younger older => older.address < younger.address := by
  refine entriesFrom_induction (P := fun _ entries => entries.Pairwise fun younger older =>
    older.address < younger.address) ?_ ?_ address
  · intro address _
    exact List.pairwise_singleton _ _
  · intro address next holder ih
    refine List.pairwise_cons.mpr ⟨fun older hmem => ?_, ih⟩
    exact Nat.lt_of_le_of_lt (eq_read_of_mem_entriesFrom hmem).1 (Entry.lt_of_mem_older? holder)

/-- There are no more entries than offsets up to the first. -/
theorem length_entriesFrom_le (m : Memory) (address : Nat) :
    (m.entriesFrom address).length ≤ address + 1 := by
  refine entriesFrom_induction (P := fun address entries => entries.length ≤ address + 1) ?_ ?_
    address
  · intro address _
    simp
  · intro address next holder ih
    have hlt : next < address := Entry.lt_of_mem_older? holder
    rw [List.length_cons]
    omega

end Memory

namespace Dictionary

theorem entries_eq_elim (d : Dictionary) : d.entries = d.head.elim [] d.memory.entriesFrom := by
  unfold entries
  cases d.head with
  | none => rfl
  | some address => rfl

theorem head?_entries (d : Dictionary) : d.entries.head?.map (·.address) = d.head := by
  rw [entries_eq_elim]
  cases d.head with
  | none => rfl
  | some address =>
    rw [Option.elim_some, Memory.entriesFrom_eq_cons]
    rfl

theorem pairwise_entries (d : Dictionary) :
    d.entries.Pairwise fun younger older => older.address < younger.address := by
  rw [entries_eq_elim]
  cases d.head with
  | none => exact .nil
  | some address => exact d.memory.pairwise_entriesFrom address

theorem length_entries_le (d : Dictionary) : d.entries.length ≤ d.head.elim 0 (· + 1) := by
  rw [entries_eq_elim]
  cases d.head with
  | none => exact Nat.le_refl 0
  | some address => exact d.memory.length_entriesFrom_le address

theorem eq_read_of_mem_entries {d : Dictionary} {entry : Entry} (h : entry ∈ d.entries) :
    entry = Entry.read d.memory entry.address := by
  rw [entries_eq_elim] at h
  cases hhead : d.head with
  | none => simp [hhead] at h
  | some address =>
    rw [hhead] at h
    exact (Memory.eq_read_of_mem_entriesFrom h).2

end Dictionary
end ForthAssembler

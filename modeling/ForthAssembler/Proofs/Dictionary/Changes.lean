import ForthAssembler.Proofs.Dictionary.Linked

/-! What changes to a dictionary keep of its chain. The chain stays whole as long as no entry reaches
into a newer one, which an image that is restored need not respect. -/
namespace ForthAssembler
open Text

namespace Chain

/-- The header of each entry ends before those of the newer ones begin. -/
def Separate (items : List Item) : Prop :=
  items.Pairwise fun younger older => older.stop ≤ younger.address

variable {bytes : List UInt8} {items : List Item} {last : Link}

theorem Holds.append (h : Holds bytes last items) (rest : List UInt8) :
    Holds (bytes ++ rest) last items := by
  refine h.congr fun item hitem => ?_
  obtain ⟨link, hstands⟩ := h.stands_of_mem hitem
  exact List.take_append_of_le_length hstands.stop_le

/-- A header that is written behind the bytes stands there. -/
theorem stands_header {link : Link} {name : String} (hlink : ∀ n ∈ link, n < Link.endCell)
    (hname : Entry.Legal name) (bytes : List UInt8) (hidden : Bool) :
    Stands (bytes ++ Entry.header link hidden name) ⟨bytes.length, name⟩ link := by
  have hcell : cell? (bytes ++ Entry.header link hidden name) bytes.length = some link.cell := by
    simp [cell?, Entry.header, Cell.bytes, Cell.value_bytes (Link.cell_lt hlink)]
  refine ⟨?_, ⟨Tag.ofName hidden (utf8 name).length, ?_, Tag.nameLength_ofName hname.2, ?_⟩, hname⟩
  · rw [hcell, Option.map_some, Link.ofCell_cell hlink]
  · simp [Entry.header, Cell.bytes, Entry.tagOffset]
  · simp [Entry.header, Cell.bytes, Entry.nameOffset]

/-- Of a tag only the length of the name matters. -/
theorem Stands.set_tag {item : Item} {link : Link} (h : Stands bytes item link) {tag tag' : UInt8}
    (htag : bytes[item.address + Entry.tagOffset]? = some tag)
    (hlength : Tag.nameLength tag' = Tag.nameLength tag) :
    Stands (bytes.set (item.address + Entry.tagOffset) tag') item link := by
  obtain ⟨tag₀, htag₀, hlength₀, hname⟩ := h.name
  obtain rfl := Option.some.inj (htag.symm.trans htag₀)
  have hlt := (List.getElem?_eq_some_iff.mp htag).1
  have hcell : cell? (bytes.set (item.address + Entry.tagOffset) tag') item.address =
      cell? bytes item.address := by
    have htake : (bytes.set (item.address + Entry.tagOffset) tag').take (item.address + 2) =
        bytes.take (item.address + 2) := List.take_set_of_le (Nat.le_refl _)
    rw [← cell?_take (Nat.le_refl _), htake, cell?_take (Nat.le_refl _)]
  refine ⟨?_, ⟨tag', ?_, hlength.trans hlength₀, ?_⟩, h.legal⟩
  · rw [hcell]
    exact h.link
  · exact List.getElem?_set_self hlt
  · rw [List.drop_set_of_lt (by simp [Entry.tagOffset, Entry.nameOffset])]
    exact hname

end Chain

namespace Dictionary
open Chain
variable {d d' : Dictionary} {items : List Chain.Item}

/-- The tag of the newest entry is changed, if it is allocated. -/
theorem reveal_cases {n : Nat} (hhead : d.head = some n) :
    (d.here ≤ n + Entry.tagOffset ∧ d.reveal = .error .latestAllocated) ∨
      ∃ tag d', d.memory.allocated[n + Entry.tagOffset]? = some tag ∧ d.reveal = .ok d' ∧
        d'.head = some n ∧ d'.memory.size = d.memory.size ∧
        d'.memory.allocated =
          d.memory.allocated.set (n + Entry.tagOffset) (Tag.revealed tag) := by
  have hset := Memory.set8?_eq d.memory (n + Entry.tagOffset)
    (Tag.revealed (Entry.read d.memory n).tag)
  have hlatest : d.latest? = some (Entry.read d.memory n) := by rw [latest?, hhead, Option.map_some]
  have haddress : (Entry.read d.memory n).address = n := rfl
  by_cases hlt : n + Entry.tagOffset < d.memory.here
  · rw [if_pos hlt] at hset
    obtain ⟨m, hm, halloc⟩ := Option.map_eq_some_iff.mp hset
    rw [← Memory.length_allocated] at hlt
    have htag := List.getElem?_eq_getElem hlt
    have hread : (Entry.read d.memory n).tag = d.memory.allocated[n + Entry.tagOffset] := by
      simp only [Entry.read, Memory.get8?_eq, htag, Option.getD_some]
    refine .inr ⟨_, { d with memory := m }, htag, ?_, hhead, Memory.size_of_set8? hm, ?_⟩
    · simp only [reveal, hlatest, haddress, hm]
    · rw [halloc, hread]
  · rw [if_neg hlt] at hset
    have hnone := Option.map_eq_none_iff.mp hset
    refine .inl ⟨Nat.le_of_not_lt hlt, ?_⟩
    simp only [reveal, hlatest, haddress, hnone]

/-- The links lead backwards from below the cursor. -/
structure Backward (d : Dictionary) : Prop where
  linked : d.Linked
  head : ∀ n ∈ d.head, n < d.here

/-- The image is a chain whose entries are apart. -/
def Spaced (d : Dictionary) : Prop := ∃ items, Holds d.memory.allocated d.head items ∧ Separate items

theorem Backward.reveal (h : d.Backward) {d' : Dictionary} (hreveal : d.reveal = .ok d') :
    d'.Backward := by
  cases hhead : d.head with
  | none =>
    rw [Dictionary.reveal, latest?, hhead] at hreveal
    cases hreveal
    exact h
  | some n =>
    obtain ⟨-, herror⟩ | ⟨tag, d₁, htag, hok, hhead', -, halloc⟩ := reveal_cases hhead
    · simp [herror] at hreveal
    · obtain rfl := Except.ok.inj (hok.symm.trans hreveal)
      have hlt := (List.getElem?_eq_some_iff.mp htag).1
      refine ⟨?_, ?_⟩
      · have hlinked := h.linked
        rw [Linked, hhead] at hlinked
        rw [Linked, halloc, hhead']
        refine hlinked.congr fun n' hn' => ?_
        obtain rfl := Option.some.inj hn'
        rw [← List.set_append_left _ _ hlt]
        exact List.take_set_of_le (Nat.le_refl _)
      · rw [hhead']
        rintro n' ⟨⟩
        rw [here, ← Memory.length_allocated, halloc, List.length_set]
        omega

theorem Spaced.reveal (h : d.Spaced) : ∃ d', d.reveal = .ok d' ∧ d'.Spaced := by
  obtain ⟨items, hholds, hapart⟩ := h
  cases items with
  | nil =>
    have hhead := holds_nil.mp hholds
    exact ⟨d, by rw [Dictionary.reveal, latest?, hhead]; rfl, [], hholds, hapart⟩
  | cons item older =>
    obtain ⟨hhead, hstands, hlt, hrest⟩ := holds_cons.mp hholds
    have hstop := hstands.stop_le
    have hheader := address_lt_stop item
    rw [Memory.length_allocated] at hstop
    obtain ⟨hle, -⟩ | ⟨tag, d', htag, hok, hhead', -, halloc⟩ := reveal_cases hhead
    · simp only [here, Entry.tagOffset] at hle
      omega
    · refine ⟨d', hok, item :: older, ?_, hapart⟩
      rw [halloc, hhead', holds_cons]
      refine ⟨rfl, hstands.set_tag htag (Tag.nameLength_revealed tag), hlt, ?_⟩
      refine hrest.congr fun i hi => List.take_set_of_le ?_
      have := (List.pairwise_cons.mp hapart).1 i hi
      omega

theorem Backward.push (h : d.Backward) {name : String} {hidden : Bool} {address : Nat}
    (hpush : d.push name hidden = .ok (address, d')) : d'.Backward := by
  obtain ⟨-, -, hhead, halloc, -⟩ := of_push_eq_ok hpush
  have hlength : d.memory.allocated.length = d.here := Memory.length_allocated _
  have hlink : ∀ n ∈ d.head, n < d.memory.allocated.length := by
    rw [hlength]
    exact h.head
  constructor
  · rw [← hlength] at hhead
    rw [← List.append_nil (_ ++ Entry.header _ _ _)] at halloc
    exact (linked_iff_of_header halloc hhead hlink).mpr h.linked
  · rw [hhead]
    rintro n ⟨⟩
    rw [← hlength, here, ← Memory.length_allocated, halloc, List.length_append,
      Entry.length_header, Entry.nameOffset]
    omega

theorem Spaced.push (h : d.Spaced) {name : String} {hidden : Bool} {address : Nat}
    (hpush : d.push name hidden = .ok (address, d')) : d'.Spaced := by
  obtain ⟨items, hholds, hapart⟩ := h
  obtain ⟨hname, -, hhead, halloc, -⟩ := of_push_eq_ok hpush
  have hlength : d.memory.allocated.length = d.here := Memory.length_allocated _
  have hbelow : ∀ n ∈ d.head, n < d.memory.allocated.length := by
    intro n hn
    have := hholds.lt_length n hn
    omega
  have hend : ∀ n ∈ d.head, n < Link.endCell := fun n hn =>
    Link.lt_endCell (hbelow n hn) d.memory.length_allocated_le
  refine ⟨⟨d.memory.allocated.length, name⟩ :: items, ?_, List.pairwise_cons.mpr ⟨?_, hapart⟩⟩
  · rw [halloc, hhead, ← hlength, holds_cons, hholds.last]
    exact ⟨rfl, stands_header hend hname _ _, hbelow, hholds.append _⟩
  · intro older holder
    obtain ⟨link, hstands⟩ := hholds.stands_of_mem holder
    exact hstands.stop_le

theorem Backward.forget (h : d.Backward) {foldCase : Bool} {name : String} {address : Nat}
    (hforget : d.forget foldCase name = .ok (address, d')) : d'.Backward :=
  ⟨(h.linked.forget h.head foldCase name).2 _ _ hforget, (of_forget_eq_ok hforget).2⟩

/-- What is left of the image ends where the forgotten header began, behind all older ones. -/
theorem Spaced.forget (h : d.Spaced) {foldCase : Bool} {name : String} {address : Nat}
    (hforget : d.forget foldCase name = .ok (address, d')) : d'.Spaced := by
  obtain ⟨items, hholds, hapart⟩ := h
  unfold Dictionary.forget at hforget
  split at hforget
  · cases hforget
  · rename_i entry hfind
    have hmem : entry ∈ d.entries := List.mem_of_find?_eq_some hfind
    obtain ⟨newer, item, older, rfl, haddress, hlink⟩ := of_mem_entries hholds hmem
    obtain ⟨-, hstands, hlt, hrest⟩ := holds_cons.mp hholds.of_append
    have holder : ∀ i ∈ older, i.stop ≤ item.address :=
      (List.pairwise_cons.mp (List.pairwise_append.mp hapart).2.1).1
    have hlength : (d.memory.allocated.take item.address).length = item.address := by
      have hstop := hstands.stop_le
      have hheader := address_lt_stop item
      rw [List.length_take]
      omega
    have hlink' : ∀ n ∈ entry.link, n < (d.memory.allocated.take item.address).length := by
      rw [hlength, hlink]
      exact hlt
    obtain ⟨d₁, htruncate, hhead, -, halloc⟩ :=
      truncate_eq_ok (List.take_append_drop item.address d.memory.allocated).symm hlink'
    rw [haddress, ← hlength, htruncate] at hforget
    cases hforget
    refine ⟨older, ?_, (List.pairwise_cons.mp (List.pairwise_append.mp hapart).2.1).2⟩
    rw [halloc, hhead, hlink]
    refine hrest.congr fun i hi => ?_
    rw [List.take_take, Nat.min_eq_left (holder i hi)]

/-- What may be done to a dictionary. -/
inductive Change
  | push (name : String) (hidden : Bool)
  | reveal
  | forget (foldCase : Bool) (name : String)
  | reset
  | restore (bytes : List UInt8) (head : Link)
  deriving DecidableEq, Repr

/-- The dictionary after a change. What is refused changes nothing. -/
def change (d : Dictionary) : Change → Except Assertion Dictionary
  | .push name hidden =>
    match d.push name hidden with
    | .ok (_, d') => .ok d'
    | .error _ => .ok d
  | .reveal => d.reveal
  | .forget foldCase name =>
    match d.forget foldCase name with
    | .ok (_, d') => .ok d'
    | .error (.refused _) => .ok d
    | .error (.violated assertion) => .error assertion
  | .reset => .ok d.reset
  | .restore bytes head =>
    match d.restore bytes head with
    | .ok d' => .ok d'
    | .error _ => .ok d

def changeAll (d : Dictionary) (changes : List Change) : Except Assertion Dictionary :=
  changes.foldlM change d

/-- An image that the change restores has its entries apart. -/
def Change.Spaced : Change → Prop
  | .restore bytes head => ∀ items, Holds bytes head items → Separate items
  | _ => True

theorem Backward.change (h : d.Backward) (c : Change) :
    (∀ d', d.change c = .ok d' → d'.Backward) ∧
      ∀ assertion, d.change c = .error assertion → assertion = .latestAllocated := by
  have hsame : (∀ d', Except.ok d = (.ok d' : Except Assertion Dictionary) → d'.Backward) ∧
      ∀ assertion, Except.ok d = (.error assertion : Except Assertion Dictionary) →
        assertion = .latestAllocated := by
    simp [h]
  cases c with
  | push name hidden =>
    simp only [Dictionary.change]
    split
    · rename_i hpush
      simp [h.push hpush]
    · exact hsame
  | reveal =>
    refine ⟨fun _ => h.reveal, fun assertion herror => ?_⟩
    simp only [Dictionary.change] at herror
    cases hhead : d.head with
    | none =>
      rw [Dictionary.reveal, latest?, hhead] at herror
      cases herror
    | some n =>
      obtain ⟨-, heq⟩ | ⟨_, _, -, hok, -⟩ := reveal_cases hhead
      · exact (Except.error.inj (heq.symm.trans herror)).symm
      · simp [hok] at herror
  | forget foldCase name =>
    simp only [Dictionary.change]
    split
    · rename_i hforget
      simp [h.forget hforget]
    · exact hsame
    · rename_i assertion hforget
      exact absurd hforget ((h.linked.forget h.head foldCase name).1 assertion)
  | reset =>
    have hreset : d.reset.Backward := ⟨linked_of_head_eq_none rfl, by simp [Dictionary.reset]⟩
    simp [Dictionary.change, hreset]
  | restore bytes head =>
    simp only [Dictionary.change]
    split
    · rename_i d₁ hrestore
      obtain ⟨halloc, hhead, -, hlt⟩ := of_restore_eq_ok hrestore
      have hrestored : d₁.Backward := by
        refine ⟨linked_of_restore_eq_ok hrestore, ?_⟩
        rw [here, ← Memory.length_allocated, halloc, hhead]
        exact hlt
      simp [hrestored]
    · exact hsame

theorem Spaced.change (h : d.Spaced) {c : Change} (hc : c.Spaced) :
    ∃ d', d.change c = .ok d' ∧ d'.Spaced := by
  cases c with
  | push name hidden =>
    simp only [Dictionary.change]
    split
    · rename_i hpush
      exact ⟨_, rfl, h.push hpush⟩
    · exact ⟨d, rfl, h⟩
  | reveal => exact h.reveal
  | forget foldCase name =>
    have hback : d.Backward := by
      obtain ⟨items, hholds, -⟩ := h
      refine ⟨hholds.linked.append _, fun n hn => ?_⟩
      have := hholds.lt_length n hn
      rw [Memory.length_allocated] at this
      exact Nat.lt_of_lt_of_le (by omega) this
    simp only [Dictionary.change]
    split
    · rename_i hforget
      exact ⟨_, rfl, h.forget hforget⟩
    · exact ⟨d, rfl, h⟩
    · rename_i assertion hforget
      exact absurd hforget ((hback.linked.forget hback.head foldCase name).1 assertion)
  | reset =>
    refine ⟨d.reset, rfl, [], ?_, .nil⟩
    exact holds_nil.mpr rfl
  | restore bytes head =>
    simp only [Dictionary.change]
    split
    · rename_i d₁ hrestore
      obtain ⟨-, items, hholds⟩ := exists_restore_iff.mp ⟨d₁, hrestore⟩
      obtain ⟨halloc, hhead, -, -⟩ := of_restore_eq_ok hrestore
      refine ⟨d₁, rfl, items, ?_, hc items hholds⟩
      rw [halloc, hhead]
      exact hholds
    · exact ⟨d, rfl, h⟩

/-- By induction on the changes. -/
theorem Backward.changeAll (h : d.Backward) {changes : List Change} {assertion : Assertion}
    (herror : d.changeAll changes = .error assertion) : assertion = .latestAllocated := by
  induction changes generalizing d with
  | nil => cases herror
  | cons c rest ih =>
    obtain ⟨hok, hfails⟩ := h.change c
    simp only [Dictionary.changeAll, List.foldlM_cons, bind, Except.bind] at herror
    split at herror
    · cases herror
      exact hfails _ ‹_›
    · exact ih (hok _ ‹_›) herror

theorem Spaced.changeAll (h : d.Spaced) {changes : List Change} (hall : ∀ c ∈ changes, c.Spaced) :
    ∃ d', d.changeAll changes = .ok d' ∧ d'.Spaced := by
  induction changes generalizing d with
  | nil => exact ⟨d, rfl, h⟩
  | cons c rest ih =>
    obtain ⟨hc, hrest⟩ := List.forall_mem_cons.mp hall
    obtain ⟨d₁, hok, hd₁⟩ := h.change hc
    obtain ⟨d', hlast, hd'⟩ := ih hd₁ hrest
    refine ⟨d', ?_, hd'⟩
    simp only [Dictionary.changeAll, List.foldlM_cons, hok]
    exact hlast

/-- Whatever images are restored, only revealing the newest entry may fail an assertion. As long as
the entries of these images are apart no assertion fails, and what is left can be restored again. -/
theorem changeAll_blank (capacity : Capacity) (changes : List Change) :
    (∀ assertion, changeAll (.blank capacity) changes = .error assertion →
      assertion = .latestAllocated) ∧
    ((∀ c ∈ changes, c.Spaced) → ∃ d, changeAll (.blank capacity) changes = .ok d ∧
      ∃ d', d.restore d.memory.allocated d.head = .ok d') := by
  have hblank : Backward (.blank capacity) := ⟨linked_of_head_eq_none rfl, nofun⟩
  refine ⟨fun _ => hblank.changeAll, fun hall => ?_⟩
  have hspaced : Spaced (.blank capacity) := ⟨[], holds_nil.mpr rfl, .nil⟩
  obtain ⟨d, hok, items, hholds, -⟩ := hspaced.changeAll hall
  refine ⟨d, hok, exists_restore_iff.mpr ⟨?_, items, hholds⟩⟩
  rw [Memory.length_allocated]
  exact d.memory.here_le

/-- A hidden entry is added to an image with one entry, and revealed. -/
theorem changeAll_blank_restored :
    ∃ d, changeAll (.blank ⟨16, by decide, by decide⟩) [.restore [0xff, 0xff, 1, 0x64] (some 0),
        .push "e" true, .reveal, .forget false "e"] = .ok d ∧
      ∃ d', d.restore d.memory.allocated d.head = .ok d' := by
  refine (changeAll_blank _ _).2 ?_
  have himage : ∀ items, Holds [0xff, 0xff, 1, 0x64] (some 0) items → Separate items := by
    intro items hholds
    cases items with
    | nil => cases holds_nil.mp hholds
    | cons item older =>
      obtain ⟨hfirst, -, hlt, -⟩ := holds_cons.mp hholds
      cases older with
      | nil => exact List.pairwise_singleton _ _
      | cons next older =>
        have hnext : next.address < item.address := hlt next.address rfl
        have hzero : 0 = item.address := Option.some.inj hfirst
        omega
  simpa [Change.Spaced] using himage

/-- The entry at 5 begins inside of the one at 4. Once it is forgotten the other one is cut off. -/
theorem changeAll_overlap :
    let image := [0xff, 0xff, 1, 0x64, 0, 0, 4, 1, 0x78, 0x79, 0x7a]
    ∃ d, changeAll (.blank ⟨16, by decide, by decide⟩) [.restore image (some 5), .forget false "x"] =
        .ok d ∧
      d.memory.allocated = [0xff, 0xff, 1, 0x64, 0] ∧ d.head = some 4 ∧
      (¬ ∃ d', d.restore d.memory.allocated d.head = .ok d') ∧
      d.reveal = .error .latestAllocated := by
  intro image
  have hrun : (changeAll (.blank ⟨16, by decide, by decide⟩)
      [.restore image (some 5), .forget false "x"]).toOption.map
        (fun d => (d.memory.allocated, d.head)) = some ([0xff, 0xff, 1, 0x64, 0], some 4) := by
    decide +kernel
  cases hd : changeAll (.blank ⟨16, by decide, by decide⟩)
      [.restore image (some 5), .forget false "x"] with
  | error assertion => simp [hd, Except.toOption] at hrun
  | ok d =>
    obtain ⟨halloc, hhead⟩ := Prod.mk.inj (Option.some.inj (hd ▸ hrun))
    refine ⟨d, rfl, halloc, hhead, ?_, ?_⟩
    · rw [exists_restore_iff, halloc, hhead]
      rintro ⟨-, items, hholds⟩
      have hle := hholds.lt_length 4 rfl
      simp at hle
    · obtain ⟨-, herror⟩ | ⟨tag, _, htag, -⟩ := reveal_cases hhead
      · exact herror
      · simp [halloc, Entry.tagOffset] at htag

end Dictionary
end ForthAssembler

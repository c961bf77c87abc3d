import ForthAssembler.Control.Patch
import ForthAssembler.Proofs.Dictionary.Header
import ForthAssembler.Proofs.Dictionary.Walk
import ForthAssembler.Report.Dump
import ForthAssembler.Report.Listing
import ForthAssembler.Report.Words

/-! Dictionaries that differ only behind the cursor: nothing read from them tells them apart, and
whatever is written leaves them so. -/
namespace ForthAssembler

/-- Both fail alike, or both succeed with related values. -/
def Agree {ε α β : Type} (R : α → β → Prop) : Except ε α → Except ε β → Prop
  | .ok v, .ok w => R v w
  | .error e, .error e' => e = e'
  | _, _ => False

theorem Agree.mapError {ε ε' α β : Type} {R : α → β → Prop} {r : Except ε α} {r' : Except ε β}
    (h : Agree R r r') (f : ε → ε') : Agree R (r.mapError f) (r'.mapError f) := by
  cases r <;> cases r'
  · exact congrArg f h
  · exact h.elim
  · exact h.elim
  · exact h

theorem cases_of_rel {α β : Type} {R : α → β → Prop} {f : Option α} {g : Option β}
    (h : Option.Rel R f g) : (f = none ∧ g = none) ∨ ∃ v w, f = some v ∧ g = some w ∧ R v w := by
  cases h with
  | none => exact .inl ⟨rfl, rfl⟩
  | some h => exact .inr ⟨_, _, rfl, rfl, h⟩

namespace Memory

/-- The memories differ only behind the cursor. -/
structure Alike (m n : Memory) : Prop where
  size : m.size = n.size
  allocated : m.allocated = n.allocated

/-- The results are a value and a memory. -/
def AlikeAfter {α : Type} (p q : α × Memory) : Prop := p.1 = q.1 ∧ p.2.Alike q.2

section Read
variable {m n : Memory} (h : m.allocated = n.allocated)
include h

theorem here_congr : m.here = n.here := by
  rw [← length_allocated, h, length_allocated]

theorem get8?_congr (address : Nat) : m.get8? address = n.get8? address := by
  rw [get8?_eq, h, ← get8?_eq]

theorem range_congr (start stop : Nat) : m.range start stop = n.range start stop := by
  rw [range_eq, h, ← range_eq]

theorem read_congr (address : Nat) : Entry.read m address = Entry.read n address := by
  simp only [Entry.read, get16?, get8?_congr h, range_congr h]

theorem entriesFrom_congr (address : Nat) : m.entriesFrom address = n.entriesFrom address := by
  refine entriesFrom_induction (P := fun address entries => entries = n.entriesFrom address)
    ?_ ?_ address
  · intro address holder
    rw [entriesFrom_eq_cons n, ← read_congr h, holder, Option.elim_none]
  · intro address next holder ih
    rw [entriesFrom_eq_cons n, ← read_congr h, holder, Option.elim_some, ih]

theorem dump_congr (start length : Nat) : m.dump start length = n.dump start length := by
  simp only [dump, range_congr h]

end Read

namespace Alike
variable {m n : Memory}

theorem here (h : Alike m n) : m.here = n.here := here_congr h.allocated

theorem unused (h : Alike m n) : m.unused = n.unused := by
  rw [Memory.unused, h.size, h.here, ← Memory.unused]

theorem push? (h : Alike m n) (bytes : List UInt8) :
    Option.Rel AlikeAfter (m.push? bytes) (n.push? bytes) := by
  have hnone := push?_eq_none_iff m bytes
  rw [h.unused, ← push?_eq_none_iff] at hnone
  cases hm : m.push? bytes with
  | none =>
    rw [hnone.mp hm]
    exact .none
  | some grown =>
    cases hn : n.push? bytes with
    | none => simp [hnone.mpr hn] at hm
    | some grown' =>
      obtain ⟨hstart, halloc, hsize⟩ := of_push?_eq_some hm
      obtain ⟨hstart', halloc', hsize'⟩ := of_push?_eq_some hn
      exact .some ⟨by rw [hstart, hstart', h.here], by rw [hsize, hsize', h.size],
        by rw [halloc, halloc', h.allocated]⟩

/-- An operation that fails for the same memories, and is known by the bytes it leaves. -/
theorem of_map {f g : Option Memory} (hsize : ∀ m' ∈ f, m'.size = m.size)
    (hsize' : ∀ n' ∈ g, n'.size = n.size)
    (hmap : f.map Memory.allocated = g.map Memory.allocated) (h : Alike m n) :
    Option.Rel Alike f g := by
  cases f with
  | none =>
    cases g with
    | none => exact .none
    | some n' => simp at hmap
  | some m' =>
    cases g with
    | none => simp at hmap
    | some n' =>
      exact .some ⟨by rw [hsize m' rfl, hsize' n' rfl, h.size], Option.some.inj hmap⟩

theorem rewind? (h : Alike m n) (address : Nat) :
    Option.Rel Alike (m.rewind? address) (n.rewind? address) :=
  of_map (fun _ => size_of_rewind?) (fun _ => size_of_rewind?)
    (by rw [rewind?_eq, rewind?_eq, h.here, h.allocated]) h

theorem set8? (h : Alike m n) (address : Nat) (value : UInt8) :
    Option.Rel Alike (m.set8? address value) (n.set8? address value) :=
  of_map (fun _ => size_of_set8?) (fun _ => size_of_set8?)
    (by rw [set8?_eq, set8?_eq, h.here, h.allocated]) h

theorem set16? (h : Alike m n) (address value : Nat) :
    Option.Rel Alike (m.set16? address value) (n.set16? address value) :=
  of_map (fun _ => size_of_set16?) (fun _ => size_of_set16?)
    (by rw [set16?_eq, set16?_eq, h.here, h.allocated]) h

theorem restore? (h : Alike m n) (bytes : List UInt8) :
    Option.Rel Alike (m.restore? bytes) (n.restore? bytes) :=
  of_map (fun _ => size_of_restore?) (fun _ => size_of_restore?)
    (by rw [restore?_eq, restore?_eq, h.size]) h

theorem clear (h : Alike m n) : m.clear.Alike n.clear where
  size := by simpa [Memory.clear, Memory.size] using h.size
  allocated := by rw [allocated_clear, allocated_clear]

theorem foldlM_set16? (h : Alike m n) (filled : List (Patch × Nat)) :
    Option.Rel Alike (filled.foldlM (fun m (patch, word) => m.set16? patch.site word) m)
      (filled.foldlM (fun m (patch, word) => m.set16? patch.site word) n) := by
  induction filled generalizing m n with
  | nil => exact .some h
  | cons next filled ih =>
    obtain ⟨patch, word⟩ := next
    rw [List.foldlM_cons, List.foldlM_cons]
    dsimp only
    obtain ⟨hm, hn⟩ | ⟨m', n', hm, hn, h'⟩ := cases_of_rel (h.set16? patch.site word)
    · rw [hm, hn]
      exact .none
    · rw [hm, hn]
      exact ih h'

theorem commit (h : Alike m n) (code : List UInt8) (patches : List Patch) :
    Agree AlikeAfter (m.commit code patches) (n.commit code patches) := by
  have hword : Patch.word m = Patch.word n := by
    funext patch
    rw [Patch.word, get8?_congr h.allocated, ← Patch.word]
  unfold Memory.commit
  rw [hword, h.unused]
  split
  · rfl
  · obtain ⟨hm, hn⟩ | ⟨⟨start, m'⟩, ⟨start', n'⟩, hm, hn, hstart, h'⟩ :=
      cases_of_rel (h.push? code)
    · rw [hm, hn]
      cases patches.mapM (Patch.word n) <;> rfl
    · rw [hm, hn]
      cases patches.mapM (Patch.word n) with
      | error e => rfl
      | ok words =>
        obtain ⟨hm', hn'⟩ | ⟨m'', n'', hm', hn', h''⟩ :=
          cases_of_rel (h'.foldlM_set16? (patches.zip words))
        · simp only [hm', hn']
          rfl
        · simp only [hm', hn']
          exact ⟨hstart, h''⟩

end Alike
end Memory

namespace Dictionary

section Read
variable {d e : Dictionary} (hbytes : d.memory.allocated = e.memory.allocated)
  (hhead : d.head = e.head)
include hbytes

theorem here_congr : d.here = e.here := Memory.here_congr hbytes

include hhead

theorem entries_congr : d.entries = e.entries := by
  simp only [entries, hhead]
  split
  · rfl
  · exact Memory.entriesFrom_congr hbytes _

theorem find?_congr (foldCase : Bool) (name : String) :
    d.find? foldCase name = e.find? foldCase name := by
  rw [find?, entries_congr hbytes hhead, ← find?]

theorem visible_congr : d.visible = e.visible := by
  rw [visible, entries_congr hbytes hhead, ← visible]

theorem words_congr : d.words = e.words := by
  rw [words, visible_congr hbytes hhead, ← words]

theorem entryOfCode?_congr (code : Nat) : d.entryOfCode? code = e.entryOfCode? code := by
  rw [entryOfCode?, entries_congr hbytes hhead, ← entryOfCode?]

theorem traceText_congr (start stop : Nat) : d.traceText start stop = e.traceText start stop := by
  have hannotate : d.annotate = e.annotate := by
    funext line
    simp only [annotate, entryOfCode?_congr hbytes hhead]
  rw [traceText, trace, Memory.range_congr hbytes, hannotate, ← trace, ← traceText]

theorem codeEnd_congr (entry : Entry) : d.codeEnd entry = e.codeEnd entry := by
  simp only [codeEnd, entries_congr hbytes hhead, here_congr hbytes]

theorem see_congr (foldCase : Bool) (name : String) : d.see foldCase name = e.see foldCase name := by
  simp only [see, find?_congr hbytes hhead, traceText_congr hbytes hhead,
    codeEnd_congr hbytes hhead]

end Read

/-- The dictionaries differ only behind the cursor. -/
structure Alike (d e : Dictionary) : Prop where
  memory : d.memory.Alike e.memory
  head : d.head = e.head

/-- The results are a value and a dictionary. -/
def AlikeAfter {α : Type} (p q : α × Dictionary) : Prop := p.1 = q.1 ∧ p.2.Alike q.2

namespace Alike
variable {d e : Dictionary}

theorem here (h : Alike d e) : d.here = e.here := h.memory.here

theorem latest? (h : Alike d e) : d.latest? = e.latest? := by
  simp only [Dictionary.latest?, h.head]
  cases e.head with
  | none => rfl
  | some address => exact congrArg some (Memory.read_congr h.memory.allocated address)

theorem entries (h : Alike d e) : d.entries = e.entries := entries_congr h.memory.allocated h.head

theorem find? (h : Alike d e) (foldCase : Bool) (name : String) :
    d.find? foldCase name = e.find? foldCase name :=
  find?_congr h.memory.allocated h.head foldCase name

theorem visible (h : Alike d e) : d.visible = e.visible := visible_congr h.memory.allocated h.head

theorem words (h : Alike d e) : d.words = e.words := words_congr h.memory.allocated h.head

theorem vocabulary (h : Alike d e) (offsets : Bool) :
    d.vocabulary offsets = e.vocabulary offsets := by
  rw [Dictionary.vocabulary, h.visible, ← Dictionary.vocabulary]

theorem status (h : Alike d e) : d.status = e.status := by
  rw [Dictionary.status, h.here, h.head, h.memory.size, h.memory.unused, ← Dictionary.status]

theorem traceText (h : Alike d e) (start stop : Nat) :
    d.traceText start stop = e.traceText start stop :=
  traceText_congr h.memory.allocated h.head start stop

theorem see (h : Alike d e) (foldCase : Bool) (name : String) :
    d.see foldCase name = e.see foldCase name :=
  see_congr h.memory.allocated h.head foldCase name

theorem push (h : Alike d e) (name : String) (hidden : Bool) :
    Agree AlikeAfter (d.push name hidden) (e.push name hidden) := by
  unfold Dictionary.push
  rw [h.head, h.memory.unused]
  dsimp only
  split
  · rfl
  · obtain ⟨hm, hn⟩ | ⟨⟨start, m'⟩, ⟨start', n'⟩, hm, hn, hstart, h'⟩ :=
      cases_of_rel (h.memory.push? (Entry.header e.head hidden name))
    · rw [hm, hn]
      rfl
    · rw [hm, hn]
      exact ⟨hstart, h', congrArg some hstart⟩

theorem reveal (h : Alike d e) : Agree Alike d.reveal e.reveal := by
  unfold Dictionary.reveal
  rw [h.latest?]
  split
  · exact h
  · rename_i entry _
    obtain ⟨hm, hn⟩ | ⟨m', n', hm, hn, h'⟩ := cases_of_rel
      (h.memory.set8? (entry.address + Entry.tagOffset) (Tag.revealed entry.tag))
    · rw [hm, hn]
      rfl
    · rw [hm, hn]
      exact ⟨h', h.head⟩

theorem truncate (h : Alike d e) (here : Nat) (head : Link) :
    Agree Alike (d.truncate here head) (e.truncate here head) := by
  unfold Dictionary.truncate
  obtain ⟨hm, hn⟩ | ⟨m', n', hm, hn, h'⟩ := cases_of_rel (h.memory.rewind? here)
  · rw [hm, hn]
    rfl
  · rw [hm, hn]
    dsimp only
    split
    · exact ⟨h', rfl⟩
    · rfl

theorem forget (h : Alike d e) (foldCase : Bool) (name : String) :
    Agree AlikeAfter (d.forget foldCase name) (e.forget foldCase name) := by
  unfold Dictionary.forget
  rw [h.find?]
  split
  · rfl
  · rename_i entry _
    have htruncate := h.truncate entry.address entry.link
    cases hd : d.truncate entry.address entry.link <;>
      cases he : e.truncate entry.address entry.link <;>
      simp only [hd, he, Agree] at htruncate ⊢
    · rw [htruncate]
    · exact ⟨rfl, htruncate⟩

theorem reset (h : Alike d e) : d.reset.Alike e.reset := ⟨h.memory.clear, rfl⟩

theorem restore (h : Alike d e) (bytes : List UInt8) (head : Link) :
    Agree Alike (d.restore bytes head) (e.restore bytes head) := by
  unfold Dictionary.restore
  rw [h.memory.size]
  simp only [bind, Except.bind]
  split
  · rfl
  split
  · rfl
  obtain ⟨hm, hn⟩ | ⟨m', n', hm, hn, h'⟩ := cases_of_rel (h.memory.restore? bytes)
  · rw [hm, hn]
    rfl
  · rw [hm, hn]
    exact ⟨h', rfl⟩

end Alike
end Dictionary
end ForthAssembler

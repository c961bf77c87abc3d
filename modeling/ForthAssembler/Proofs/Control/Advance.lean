import ForthAssembler.Proofs.Control.Draft

/-! Control words on drafts: the plan made from the frames of one draft gives the code of the next,
and is refused where there is none. -/
namespace ForthAssembler.Draft
open Instr

variable {α : Type} (instr : α → Instr) {k : Option Loop}

/-- What a control word compiles at the end of one draft leads to the other: its branches get the
offset behind the new code. -/
structure Advances (base : Nat) (d : Draft α k) (plan : Plan) (after : Any α) : Prop where
  frames : plan.frames = after.2.frames instr base
  resolves : ∃ sites new, plan.patches = Control.toward (base + after.2.size instr) sites ∧
    Resolves base sites (base + after.2.size instr) (d.layout instr base) new ∧
    after.2.layout instr base = new ++ plan.code
  encodable : base + after.2.size instr ≤ maxTarget → ∀ i ∈ plan.code, i.Encodable

theorem plan_eq_error (base here : Nat) (d : Draft α k) {word : Control}
    (h : d.next (.control word) = none) :
    word.plan here (d.frames instr base) = .error (.unbalanced word.name) := by
  cases word with
  | breakWord =>
    have hk : k = none := by
      cases k with
      | none => rfl
      | some l => simp at h
    subst hk
    simp [Control.plan, Frame.leaveLoop?_eq]
  | _ =>
    -- Either the word has no plan on these frames, or it leads to another draft.
    cases d <;> first | rfl | cases h

variable {instr} {base : Nat} {d : Draft α k}

/-- A word that completes a structure turns its open code `old` into `new` and adds its own. -/
private theorem advances_append {j : Option Loop} {inner : Draft α j} {b : Body α k} {plan : Plan}
    {stop : Nat} {sites : List Nat} {old new : List Instr}
    (hstop : base + d.size instr + b.size instr = stop)
    (hframes : plan.frames = Frame.addBreaks (b.sites instr (base + d.size instr))
      (d.frames instr base))
    (hpatches : plan.patches = Control.toward stop sites)
    (hlayout : inner.layout instr base = d.layout instr base ++ old)
    (hresolves : Resolves (base + d.size instr) sites stop old new)
    (hcode : b.layout instr (base + d.size instr) 0 = new ++ plan.code)
    (hencodable : stop ≤ maxTarget → ∀ i ∈ plan.code, i.Encodable) :
    Advances instr base inner plan ⟨k, d.append b⟩ := by
  have hsize : base + (d.append b).size instr = stop := by
    rw [size_append, ← hstop, Nat.add_assoc]
  refine ⟨?_, ⟨sites, d.layout instr base ++ new, ?_, ?_, ?_⟩, ?_⟩
  · rw [hframes, frames_append]
  · rw [hpatches, hsize]
  · rw [hlayout, hsize]
    exact .prepend _ (by simp) hresolves
  · rw [layout_append, hcode, List.append_assoc]
  · rwa [hsize]

/-- A word that opens a structure, or its next part, only adds code. -/
private theorem advances_nil {plan : Plan} {after : Any α}
    (hframes : plan.frames = after.2.frames instr base) (hpatches : plan.patches = [])
    (hlayout : after.2.layout instr base = d.layout instr base ++ plan.code)
    (hencodable : ∀ i ∈ plan.code, i.Encodable) : Advances instr base d plan after where
  frames := hframes
  resolves := ⟨[], d.layout instr base, hpatches, .nil _ _ _, hlayout⟩
  encodable := fun _ => hencodable

private theorem plan_else {after : Any α} (h : d.next (.control .elseWord) = some after) :
    ∃ plan, Control.elseWord.plan (base + d.size instr) (d.frames instr base) = .ok plan ∧
      Advances instr base d plan after := by
  cases d with
  | cond d yes =>
    cases h
    let start := base + d.size instr
    let other := start + 2 + yes.size instr + 2
    have hres : Resolves base [start] other
        (d.layout instr base ++ .jumpZero 0 :: yes.layout instr (start + 2) 0)
        (d.layout instr base ++ .jumpZero other :: yes.layout instr (start + 2) 0) :=
      .prepend (d.layout instr base) (by simp [start]) (.append .jumpZero rfl (.nil _ _ _))
    have hother : base + (d.choice yes .empty).size instr = other := by
      simp only [size, Body.size, start, other]
      omega
    refine ⟨_, rfl, ?_, ⟨[start], _, ?_, hother ▸ hres, ?_⟩, ?_⟩
    · simp [frames, size, Body.sites, Nat.add_assoc]
    · simp [Control.toward, size, Body.size, start, Nat.add_assoc]
    · simp [layout, Body.layout, size, Body.size, start, Nat.add_assoc]
    · simp [Instr.Encodable]
  | _ => cases h

private theorem plan_then {after : Any α} (h : d.next (.control .thenWord) = some after) :
    ∃ plan, Control.thenWord.plan (base + d.size instr) (d.frames instr base) = .ok plan ∧
      Advances instr base d plan after := by
  cases d with
  | cond d yes =>
    cases h
    refine ⟨_, rfl, advances_append rfl ?_ ?_ rfl (.append .jumpZero rfl (.nil _ _ _)) ?_ ?_⟩
    · simp [Body.sites]
    · simp [Control.toward, size, Body.size, Nat.add_assoc]
    · simp [Body.layout, Body.size, Nat.add_assoc]
    · simp
  | choice d yes no =>
    cases h
    let start := base + d.size instr
    let site := start + 2 + yes.size instr
    let stop := site + 2 + no.size instr
    have hres : Resolves start [site] stop
        (.jumpZero (site + 2) :: yes.layout instr (start + 2) 0 ++
          .jump 0 :: no.layout instr (site + 2) 0)
        (.jumpZero (site + 2) :: yes.layout instr (start + 2) 0 ++
          .jump stop :: no.layout instr (site + 2) 0) :=
      .prepend (.jumpZero (site + 2) :: yes.layout instr (start + 2) 0)
        (by simp [site, Nat.add_assoc]) (.append .jump rfl (.nil _ _ _))
    have hstop : start + (Body.choice yes no .empty).size instr = stop := by
      simp only [Body.size, site, stop]
      omega
    refine ⟨_, rfl, advances_append hstop ?_ ?_ ?_ hres ?_ ?_⟩
    · simp [Body.sites, Nat.add_assoc]
    · simp [Control.toward, size, start, site, stop, Nat.add_assoc]
    · simp [layout, start, site]
    · simp [Body.layout, start, site, stop]
    · simp
  | _ => cases h

private theorem plan_until {after : Any α} (h : d.next (.control .untilWord) = some after) :
    ∃ plan, Control.untilWord.plan (base + d.size instr) (d.frames instr base) = .ok plan ∧
      Advances instr base d plan after := by
  cases d with
  | loop d b =>
    cases h
    refine ⟨_, rfl, advances_append rfl ?_ ?_ rfl (b.resolves_layout instr _ _) ?_ ?_⟩
    · simp [Body.sites]
    · simp [size, Body.size, Nat.add_assoc]
    · simp [Body.layout, Body.size, Back.jump, Nat.add_assoc]
    · simp [Instr.Encodable]
      omega
  | @guarded j d test b =>
    cases h
    let top := base + d.size instr
    let middle := top + test.size instr + 2
    let stop := middle + b.size instr + 2
    have hrest : Resolves (top + test.size instr)
        (b.sites instr middle ++ [top + test.size instr]) stop
        (.jumpZero 0 :: b.layout instr middle 0) (.jumpZero stop :: b.layout instr middle stop) :=
      .append_swap .jumpZero rfl (b.resolves_layout instr _ _)
    have hres : Resolves top
        (test.sites instr top ++ (b.sites instr middle ++ [top + test.size instr])) stop
        (test.layout instr top 0 ++ .jumpZero 0 :: b.layout instr middle 0)
        (test.layout instr top stop ++ .jumpZero stop :: b.layout instr middle stop) :=
      .append (test.resolves_layout instr _ _) (by simp) hrest
    have hstop : top + (Body.guarded test b .whenZero (.empty : Body α j)).size instr = stop := by
      simp only [Body.size, middle, stop]
      omega
    refine ⟨_, rfl, advances_append hstop ?_ ?_ ?_ hres ?_ ?_⟩
    · simp [Body.sites]
    · simp [size, top, middle, stop, Nat.add_assoc]
    · simp [layout, top, middle]
    · simp [Body.layout, Back.jump, top, middle, stop]
    · simp [Instr.Encodable, stop, middle, top]
      omega
  | _ => cases h

private theorem plan_again {after : Any α} (h : d.next (.control .againWord) = some after) :
    ∃ plan, Control.againWord.plan (base + d.size instr) (d.frames instr base) = .ok plan ∧
      Advances instr base d plan after := by
  cases d with
  | loop d b =>
    cases h
    refine ⟨_, rfl, advances_append rfl ?_ ?_ rfl (b.resolves_layout instr _ _) ?_ ?_⟩
    · simp [Body.sites]
    · simp [size, Body.size, Nat.add_assoc]
    · simp [Body.layout, Body.size, Back.jump, Nat.add_assoc]
    · simp [Instr.Encodable]
      omega
  | _ => cases h

private theorem plan_while {after : Any α} (h : d.next (.control .whileWord) = some after) :
    ∃ plan, Control.whileWord.plan (base + d.size instr) (d.frames instr base) = .ok plan ∧
      Advances instr base d plan after := by
  cases d with
  | loop d b =>
    cases h
    refine ⟨_, rfl, advances_nil ?_ rfl ?_ ?_⟩
    · simp [frames, size, Body.sites, Nat.add_assoc]
    · simp [layout, Body.layout]
    · simp [Instr.Encodable]
  | _ => cases h

private theorem plan_repeat {after : Any α} (h : d.next (.control .repeatWord) = some after) :
    ∃ plan, Control.repeatWord.plan (base + d.size instr) (d.frames instr base) = .ok plan ∧
      Advances instr base d plan after := by
  cases d with
  | @guarded j d test b =>
    cases h
    let top := base + d.size instr
    let site := top + test.size instr
    let stop := site + 2 + b.size instr + 2
    have hfirst : Resolves top (site :: test.sites instr top) stop
        (test.layout instr top 0 ++ [.jumpZero 0])
        (test.layout instr top stop ++ [.jumpZero stop]) :=
      .append_swap (test.resolves_layout instr _ _) (by simp [site]) .jumpZero
    have hres : Resolves top (site :: test.sites instr top ++ b.sites instr (site + 2)) stop
        (test.layout instr top 0 ++ [.jumpZero 0] ++ b.layout instr (site + 2) 0)
        (test.layout instr top stop ++ [.jumpZero stop] ++ b.layout instr (site + 2) stop) :=
      hfirst.append (by simp [site, Nat.add_assoc]) (b.resolves_layout instr _ _)
    have hstop : top + (Body.guarded test b .always (.empty : Body α j)).size instr = stop := by
      simp only [Body.size, site, stop]
      omega
    refine ⟨_, rfl, advances_append hstop ?_ ?_ ?_ hres ?_ ?_⟩
    · simp [Body.sites]
    · simp [size, top, site, stop, Nat.add_assoc]
    · simp [layout, top, site]
    · simp [Body.layout, Back.jump, top, site, stop]
    · simp [Instr.Encodable, stop, site, top]
      omega
  | _ => cases h

private theorem plan_next {after : Any α} (h : d.next (.control .nextWord) = some after) :
    ∃ plan, Control.nextWord.plan (base + d.size instr) (d.frames instr base) = .ok plan ∧
      Advances instr base d plan after := by
  cases d with
  | @counted j d b =>
    cases h
    let top := base + d.size instr + 1
    let stop := top + b.size instr + 3
    have hres : Resolves (base + d.size instr) (b.sites instr top) stop
        (.forLoop :: b.layout instr top 0) (.forLoop :: b.layout instr top stop) :=
      .prepend [.forLoop] rfl (b.resolves_layout instr _ _)
    have hstop : base + d.size instr + (Body.counted b (.empty : Body α j)).size instr = stop := by
      simp only [Body.size, top, stop]
      omega
    refine ⟨_, rfl, advances_append hstop ?_ ?_ rfl hres ?_ ?_⟩
    · simp [Body.sites]
    · simp [size, top, stop, Nat.add_assoc]
    · simp [Body.layout, top, stop]
    · simp [Instr.Encodable, top, stop]
      omega
  | _ => cases h

private theorem plan_break {after : Any α} (h : d.next (.control .breakWord) = some after) :
    ∃ plan, Control.breakWord.plan (base + d.size instr) (d.frames instr base) = .ok plan ∧
      Advances instr base d plan after := by
  cases k with
  | none => simp at h
  | some l =>
    obtain rfl := Option.some.inj ((next_breakWord d).symm.trans h)
    let here := base + d.size instr
    let frames := Frame.addBreaks [l.leaveSite here] (d.frames instr base)
    have hplan : Control.breakWord.plan here (d.frames instr base) =
        .ok ⟨l.leaveCode 0, [], frames⟩ := by
      simp [Control.plan, Frame.leaveLoop?_eq, frames]
    refine ⟨_, hplan, advances_append rfl ?_ rfl (List.append_nil _).symm (.nil _ _ _) ?_ ?_⟩
    · simp [Body.sites, frames, here]
    · simp [Body.layout]
    · cases l <;> simp [Loop.leaveCode, Instr.Encodable]

variable (instr base) in
/-- A control word that may stand at the end of a draft has a plan that leads to the next one. -/
theorem plan_eq_ok {word : Control} {after : Any α} (h : d.next (.control word) = some after) :
    ∃ plan, word.plan (base + d.size instr) (d.frames instr base) = .ok plan ∧
      Advances instr base d plan after := by
  cases word with
  | ifWord =>
    cases h
    refine ⟨_, rfl, advances_nil ?_ rfl ?_ ?_⟩
    · simp [frames, Body.sites]
    · simp [layout, Body.layout]
    · simp [Instr.Encodable]
  | forWord =>
    cases h
    refine ⟨_, rfl, advances_nil ?_ rfl ?_ ?_⟩
    · simp [frames, Body.sites]
    · simp [layout, Body.layout]
    · simp [Instr.Encodable]
  | elseWord => exact plan_else h
  | thenWord => exact plan_then h
  | untilWord => exact plan_until h
  | againWord => exact plan_again h
  | whileWord => exact plan_while h
  | repeatWord => exact plan_repeat h
  | nextWord => exact plan_next h
  | breakWord => exact plan_break h

end ForthAssembler.Draft

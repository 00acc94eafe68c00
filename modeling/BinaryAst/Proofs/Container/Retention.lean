import BinaryAst.Proofs.Container.Opening
import BinaryAst.Proofs.Decode.Retention
/-!
# BinaryAst.Proofs.Container.Retention

What is told in a section is told of the container.

Each section goes on from the events of what is in front of it, and so does everything behind it.
So what a decoder tells from where it stands in a section is among the first events of the run
(`Reaches.isPrefix_decode`), even if the run fails later on.
-/

namespace BinaryAst.Decode

open Assemble

variable {α : Type}

/-- By the end of the run, with or without a value, these events have been told. -/
def Assembly.ToldBy (events : List Event) : EStateM.Result DecodeError Assembly α → Prop :=
  Meets (fun _ t => events <+: t.events.toList) fun _ t => events <+: t.events.toList

variable {events : List Event}

theorem Hushed.retains {x : Assemble α} (h : Hushed x) {s : Assembly}
    (hs : events <+: s.events.toList) : Assembly.ToldBy events (x s) := by
  have hmeets := h s.events.toList s .refl
  cases hrun : x s with
  | ok v t =>
      rw [hrun] at hmeets
      exact hs.trans hmeets.isPrefix
  | error e t =>
      rw [hrun] at hmeets
      exact hs.trans hmeets.1.isPrefix

section

variable {n : Nat} {step : Step n α} {own : Reader} {values : Vector Reader n} {side : SideStreams}

/-- `readSection` hands on what was told in the section. -/
theorem ToldBy.readSection {s : Assembly}
    (h : ToldBy events (step ⟨own, values, side, s.events⟩)) :
    Assembly.ToldBy events (Decode.readSection step own values side s) := by
  cases hrun : step ⟨own, values, side, s.events⟩ with
  | ok v after =>
      rw [hrun] at h
      rw [readSection_of_ok hrun]
      exact h
  | error e after =>
      rw [hrun] at h
      rw [readSection_of_error hrun]
      exact h

theorem Retains.readSection (h : Retains step) {s : Assembly} (hs : events <+: s.events.toList) :
    Assembly.ToldBy events (Decode.readSection step own values side s) :=
  ((h ⟨own, values, side, s.events⟩).of_isPrefix hs).readSection

end

/-! ### The sections -/

section

variable {n : Nat} {ctx : Context n}

theorem retains_tableObject (levels : Nat) :
    Retains (tableObject ctx (innerAt ctx levels) .own) := by
  refine .bind (.of_quiet (quiet_typeTag ctx .own)) fun tag =>
    .bind (.of_quiet (quiet_lookUpShape ctx tag)) fun shape => ?_
  cases levels with
  | zero => exact .of_quiet (.throw rfl)
  | succ levels =>
      change Retains (fields ctx (value ctx levels) .own false shape)
      rw [fields_eq]
      exact fun s => .map (retains_fieldsLeft levels ⟨shape, none, .own, []⟩ shape.fields s)

theorem retains_slotObject (slot : Nat) : Retains (slotObject ctx slot) :=
  (retains_tableObject ctx.limits.maxDepth).bind fun object =>
    .of_quiet ((Quiet.tell rfl).bind fun _ => .pure object)

theorem retains_root : Retains (root ctx) :=
  (retains_value ctx.limits.maxDepth .own Tag.any).bind fun v => .of_quiet (quiet_checkRoot v)

end

/-! ### The whole container -/

section

variable {bytes : Bytes} {c : Configuration} {schema : Schema} {limits : Limits} {o : Opening}
  {stage : Stage} {own : Reader} {standing : Standing o.values.size} {s : State o.values.size}

/-- What is told where a section is entered (`Enters`) is told of the container. -/
theorem Enters.told (h : Enters bytes c schema limits o stage own standing s)
    (htold : standing.Told (o.context c schema limits) s events) :
    Assembly.ToldBy events (moduleOf c schema limits (.start c bytes)) := by
  rw [moduleOf_eq_opening]
  cases h with
  | @slot _ t _ _ position _ before _ _ _ levels hopening hown hcount hlt hobjects htag hshape
      hlevels =>
      have hobject : ToldBy events (slotObject (o.context c schema limits) position before) := by
        have hdepth : (o.context c schema limits).limits.maxDepth = levels + 1 := hlevels
        refine .bind ?_ fun object => .of_quiet ((Quiet.tell rfl).bind fun _ => .pure object)
        rw [hdepth, tableObject_of_ok htag hshape]
        exact .map htold
      -- From the object to the table, and from the table to the container, whatever comes behind.
      have htable : ToldBy events (objectTable (o.context c schema limits)
          ⟨own, readersOf o.values, o.side, t.events⟩) := by
        have hsize : o.header.objectCount = (o.context c schema limits).objectCount := rfl
        rw [objectTable, bind_of_ok hcount, if_pos hsize]
        exact .collect retains_slotObject hobjects hobject hlt
      rw [bind_of_ok hopening, sections, bind_of_ok hown]
      refine htable.readSection.bind fun objects u _ hu => ?_
      refine (hushed_nextStream.retains hu).bind fun root v _ hv => ?_
      refine (retains_root.readSection hv).bind fun root w _ hw => ?_
      exact (hushed_finish limits _).retains hw
  | root hopening htable hobjects hown =>
      have hroot : ToldBy events (Decode.root (o.context c schema limits) _) :=
        .bind htold fun v => .of_quiet (quiet_checkRoot v)
      rw [bind_of_ok hopening, sections, bind_of_ok htable]
      refine (bind_of_ok hobjects).symm ▸ (bind_of_ok hown).symm ▸ ?_
      refine hroot.readSection.bind fun root w _ hw => ?_
      exact (hushed_finish limits _).retains hw

/-- What a decoder tells where it stands (`Standing.Told`) is among the first events of `decode`. -/
theorem Reaches.isPrefix_decode {path : List (String × String)}
    (h : Reaches (o.context c schema limits) (Enters bytes c schema limits o stage own) path
      standing s)
    (htold : standing.Told (o.context c schema limits) s events) :
    events <+: (Module.decode bytes c schema limits).events := by
  obtain ⟨first, start, henters, hfirst⟩ := h.told htold
  have hmodule := henters.told hfirst
  rw [Assembly.start] at hmodule
  unfold Module.decode
  dsimp only
  cases hrun : moduleOf c schema limits ⟨.ofBytes c.toWireFormat "module" bytes, #[]⟩ with
  | ok m t =>
      rw [hrun] at hmodule
      exact hmodule
  | error e t =>
      rw [hrun] at hmodule
      exact hmodule

end

end BinaryAst.Decode

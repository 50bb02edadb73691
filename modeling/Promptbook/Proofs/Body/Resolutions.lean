import Promptbook.Proofs.Body.Alike
import Promptbook.Proofs.Body.Separate

namespace Promptbook

structure Made where
  asked : Resolution
  outcome : Except Failure Payload

namespace Made

def given (e : Made) : List Value :=
  match e.outcome with
  | .ok payload => payload.parts
  | .error _ => []

def parts (e : Made) : List Value :=
  e.asked.parts ++ e.given

theorem exists_of_mem_given {e : Made} {w : Value} (hw : w ∈ e.given) :
    ∃ payload, e.outcome = .ok payload ∧ w ∈ payload.parts := by
  obtain ⟨asked, outcome⟩ := e
  cases outcome with
  | ok payload => exact ⟨payload, rfl, hw⟩
  | error e => cases hw

end Made

/-- Resolutions made one after the other, from a session on. What happens between two of them may
add containers and change the rest of the session. -/
inductive Session.Resolutions (reporting : Bool) (s : Session) : List Made → Session → Prop
  | start : Resolutions reporting s [] s
  | meanwhile {past : List Made} {u u' : Session} :
      Resolutions reporting s past u → u.heap.Adds u'.heap → Resolutions reporting s past u'
  | resolve {past : List Made} {u : Session} (c : Resolution) :
      Resolutions reporting s past u → c.Held u.heap →
        Resolutions reporting s (past ++ [⟨c, (c.run reporting u).1⟩]) (c.run reporting u).2

/-- How things stand after some resolutions: what they were given and what they gave is there, and
no list or dictionary of a payload is reached from what was there at the start, from what its
resolution was given, or from what an earlier one was given or gave. -/
structure Session.Settled (s : Session) (past : List Made) (u : Session) : Prop where
  adds : s.heap.Adds u.heap
  held : ∀ e ∈ past, ∀ w ∈ e.parts, u.heap.Holds w
  first : ∀ e ∈ past, ∀ w ∈ e.given, ∀ v, s.heap.Holds v → u.heap.Parted w v
  own : ∀ e ∈ past, ∀ w ∈ e.given, ∀ v ∈ e.asked.parts, u.heap.Parted w v
  earlier : past.Pairwise fun e e' => ∀ w ∈ e'.given, ∀ v ∈ e.parts, u.heap.Parted w v

namespace Session

variable {reporting : Bool} {s u u' : Session} {past : List Made} {c : Resolution}

theorem Settled.start (hs : s.heap.Closed) : s.Settled [] s where
  adds := .refl hs
  held := List.forall_mem_nil _
  first := List.forall_mem_nil _
  own := List.forall_mem_nil _
  earlier := .nil

theorem Settled.meanwhile (hp : s.Settled past u) (hu : u.heap.Adds u'.heap) :
    s.Settled past u' := by
  have hc := hp.adds.closed
  have hgiven (e : Made) (he : e ∈ past) (w : Value) (hw : w ∈ e.given) : u.heap.Holds w :=
    hp.held e he w (List.mem_append_right _ hw)
  have hasked (e : Made) (he : e ∈ past) (w : Value) (hw : w ∈ e.asked.parts) : u.heap.Holds w :=
    hp.held e he w (List.mem_append_left _ hw)
  exact
    { adds := hp.adds.trans hu
      held := fun e he w hw => hu.keeps.holds (hp.held e he w hw)
      first := fun e he w hw v hv =>
        (hp.first e he w hw v hv).later hu hc (hgiven e he w hw) (hp.adds.keeps.holds hv)
      own := fun e he w hw v hv =>
        (hp.own e he w hw v hv).later hu hc (hgiven e he w hw) (hasked e he v hv)
      earlier := hp.earlier.imp_of_mem fun he he' hparted w hw v hv =>
        (hparted w hw v hv).later hu hc (hgiven _ he' w hw) (hp.held _ he v hv) }

theorem Settled.resolve (hp : s.Settled past u) (hc : c.Held u.heap) :
    s.Settled (past ++ [⟨c, (c.run reporting u).1⟩]) (c.run reporting u).2 := by
  have hclosed := hp.adds.closed
  have hadds := c.adds reporting hclosed hc
  have hp' := hp.meanwhile hadds
  have hgiven : ∀ w ∈ Made.given ⟨c, (c.run reporting u).1⟩,
      (c.run reporting u).2.heap.Holds w ∧
        ∀ v, u.heap.Holds v → (c.run reporting u).2.heap.Parted w v := by
    intro w hw
    obtain ⟨payload, hrun, hmem⟩ := Made.exists_of_mem_given hw
    obtain ⟨hheld, hnew⟩ := Resolution.anew hclosed hc hrun w hmem
    exact ⟨hheld, fun v hv => hnew.parted hadds hclosed hv⟩
  refine ⟨hp'.adds, ?_, ?_, ?_, ?_⟩
  · rw [List.forall_mem_append, List.forall_mem_singleton]
    refine ⟨hp'.held, fun w hw => ?_⟩
    obtain hw | hw := List.mem_append.1 hw
    · exact hadds.keeps.holds (hc.parts w hw)
    · exact (hgiven w hw).1
  · rw [List.forall_mem_append, List.forall_mem_singleton]
    exact ⟨hp'.first, fun w hw v hv => (hgiven w hw).2 v (hp.adds.keeps.holds hv)⟩
  · rw [List.forall_mem_append, List.forall_mem_singleton]
    exact ⟨hp'.own, fun w hw v hv => (hgiven w hw).2 v (hc.parts v hv)⟩
  · rw [List.pairwise_append]
    refine ⟨hp'.earlier, List.pairwise_singleton _ _, fun e he e' he' w hw v hv => ?_⟩
    obtain rfl := List.mem_singleton.1 he'
    exact (hgiven w hw).2 v (hp.held e he v hv)

theorem Resolutions.settled (hs : s.heap.Closed) (hr : s.Resolutions reporting past u) :
    s.Settled past u := by
  induction hr with
  | start => exact .start hs
  | meanwhile _ hu ih => exact ih.meanwhile hu
  | resolve c _ hc ih => exact ih.resolve hc

/-- Resolutions on the same prompts, variables and payloads, in any order and however they end, do
not disturb each other. After some of them all that they were given and gave is there, and payloads are
apart from all else. A further one leaves untouched what is there, and so does its walk through
the copy of the body, wherever it stops. It ends as it would in any session that has what it is
given, unless a report to subscribers ends with a failure there or here; reports to mild subscribers
do not. -/
theorem resolutions_undisturbed (hs : s.heap.Closed) (hr : s.Resolutions reporting past u) :
    s.Settled past u ∧
    ∀ c : Resolution, c.Held u.heap →
      (∀ w, u.heap.Holds w → u.heap.Untouched (c.run reporting u).2.heap w ∧
        ∀ p : Prompt, c.prompt? = some p →
          u.heap.Untouched (p.trodden (u.heap.supply c.values).2 (u.heap.supply c.values).1) w) ∧
      (∀ v : Session, v.heap.Closed → c.Held v.heap → v.heap.Extends u.heap →
        (c.EndsAlike reporting v u ∨ c.IsStifled reporting v ∨ c.IsStifled reporting u) ∧
        ((reporting = true → v.Mild (fun _ _ => True) ∧ u.Mild fun _ _ => True) →
          c.EndsAlike reporting v u)) := by
  have hsettled := hr.settled hs
  refine ⟨hsettled, fun c hc => ⟨fun w hw => ⟨?_, fun p hp => ?_⟩, fun v hv hcv he => ⟨?_, ?_⟩⟩⟩
  · exact Resolution.untouched reporting hsettled.adds.closed hc hw
  · exact Resolution.untouched_trodden hsettled.adds.closed hc hp hw
  · exact Resolution.endsAlike reporting hv hcv he
  · intro hmild
    obtain hends | hstifled | hstifled := Resolution.endsAlike reporting hv hcv he
    · exact hends
    · exact (Action.not_stifled (hmild hstifled.1).1 hstifled).elim
    · exact (Action.not_stifled (hmild hstifled.1).2 hstifled).elim

end Session

namespace Action

def loopedResolution : Resolution := ⟨some loopedPrompt, .ref ⟨5⟩⟩

theorem loopedResolution_held : loopedResolution.Held loopedSession.heap where
  parts := by decide
  names := by
    intro m hm
    cases hm
    decide

/-- A second resolution of the prompt whose body has a loop leaves the first payload untouched, and
ends as the first one did. -/
theorem resolutions_undisturbed_looped : loopedSession.heap.Closed ∧
    ∃ e u, loopedSession.Resolutions false [e] u ∧ loopedResolution.Held u.heap ∧
      (∀ w ∈ e.parts, u.heap.Untouched (loopedResolution.run false u).2.heap w) ∧
      loopedResolution.EndsAlike false loopedSession u := by
  have hr : loopedSession.Resolutions false
      [⟨loopedResolution, (loopedResolution.run false loopedSession).1⟩]
      (loopedResolution.run false loopedSession).2 :=
    .resolve loopedResolution .start loopedResolution_held
  obtain ⟨hsettled, hnext⟩ := Session.resolutions_undisturbed loopedHeap_closed hr
  have hheld := loopedResolution_held.mono hsettled.adds.keeps
  obtain ⟨huntouched, hends⟩ := hnext loopedResolution hheld
  refine ⟨loopedHeap_closed, _, _, hr, hheld, fun w hw => ?_, ?_⟩
  · exact (huntouched w (hsettled.held _ List.mem_cons_self w hw)).1
  · exact (hends loopedSession loopedHeap_closed loopedResolution_held hsettled.adds.keeps).2
      fun hreporting => by cases hreporting

end Action

end Promptbook

import Atfs.Log.Rep

/-!
# The entries of a log page in the trace

Which entries a page has got since it became the last of a log can be read off the trace. Whatever
is appended to a log, freed or taken out of it, the entries on each of its pages are these.
-/

namespace Atfs

/-- The entries handed out on page `T` since it last became the last page of a log, the oldest
first. -/
def sinceJoined (T : Nat) : List Event → List Nat
  | [] => []
  | .logPage p :: trace => if p = T then [] else sinceJoined T trace
  | .logEntry e :: trace =>
    if logPageOff e = T then sinceJoined T trace ++ [e] else sinceJoined T trace
  | .alloc _ _ :: trace => sinceJoined T trace
  | .free _ _ :: trace => sinceJoined T trace

/-- The entries of the pages `Ps` are those that the trace has for them. -/
def Joined (trace : List Event) (Ps : List LogPage) : Prop :=
  ∀ P ∈ Ps, sinceJoined P.page trace = P.entries.map (·.off)

/-- The event hands out no entry and opens no page. -/
def Event.isRelease : Event → Bool
  | .alloc _ _ => true
  | .free _ _ => true
  | _ => false

/-- How a log changes while entries are appended to it and pages are taken out of it. -/
inductive Evolves (L : List LogPage) (last : LogPage) :
    List LogPage → LogPage → List Event → Prop
  | refl : Evolves L last L last []
  | extend {L₁ L' : List LogPage} {last₁ last' : LogPage} {E : LogEntry} {evs evs' : List Event}
      (before : Evolves L last L₁ last₁ evs) (entry : Extends L₁ last₁ E L' last' evs')
      (place : logPageOff E.off = last'.page) (apart : ((L' ++ [last']).map (·.page)).Nodup) :
      Evolves L last L' last' (evs' ++ evs)
  | remove {K R : List LogPage} {P last₁ : LogPage} {evs : List Event}
      (before : Evolves L last (K ++ P :: R) last₁ evs) : Evolves L last (K ++ R) last₁ evs
  | release {L₁ : List LogPage} {last₁ : LogPage} {evs : List Event} {ev : Event}
      (before : Evolves L last L₁ last₁ evs) (hev : ev.isRelease = true) :
      Evolves L last L₁ last₁ (ev :: evs)

section Trace

variable {T : Nat} {trace new evs evs' : List Event} {Ps Qs : List LogPage} {ev : Event}

theorem sinceJoined_release (h : ev.isRelease = true) :
    sinceJoined T (ev :: trace) = sinceJoined T trace := by
  cases ev with
  | alloc | free => rfl
  | logEntry | logPage => simp [Event.isRelease] at h

/-- Allocations do not matter. -/
theorem sinceJoined_filter (T : Nat) (new trace : List Event) :
    sinceJoined T (new.filter (!·.isAlloc) ++ trace) = sinceJoined T (new ++ trace) := by
  induction new with
  | nil => rfl
  | cons ev new ih =>
    cases ev with
    | alloc | free => exact ih
    | logPage | logEntry =>
      rw [List.filter_cons_of_pos rfl, List.cons_append, List.cons_append, sinceJoined,
        sinceJoined, ih]

/-- What happens on other pages does not matter. -/
theorem sinceJoined_of_outside (hpage : ∀ p, .logPage p ∈ evs → p ≠ T)
    (hentry : ∀ e, .logEntry e ∈ evs → logPageOff e ≠ T) :
    sinceJoined T (evs ++ trace) = sinceJoined T trace := by
  induction evs with
  | nil => rfl
  | cons ev evs ih =>
    have hrest := ih (fun p hp => hpage p (List.mem_cons_of_mem _ hp))
      fun e he => hentry e (List.mem_cons_of_mem _ he)
    cases ev with
    | alloc | free => exact hrest
    | logPage p => rw [List.cons_append, sinceJoined, if_neg (hpage p List.mem_cons_self), hrest]
    | logEntry e => rw [List.cons_append, sinceJoined, if_neg (hentry e List.mem_cons_self), hrest]

theorem Joined.mono (h : Joined trace Ps) (hsub : Qs ⊆ Ps) : Joined trace Qs :=
  fun P hP => h P (hsub hP)

theorem Joined.release (h : Joined trace Ps) (hev : ev.isRelease = true) :
    Joined (ev :: trace) Ps :=
  fun P hP => (sinceJoined_release hev).trans (h P hP)

theorem Recorded.sinceJoined {s s' : State} (hrec : Recorded evs s s') :
    sinceJoined T s'.trace = sinceJoined T (evs ++ s.trace) := by
  obtain ⟨new, htrace, rfl⟩ := hrec
  rw [htrace, sinceJoined_filter]

theorem Joined.recorded {s s' : State} (h : Joined (evs ++ s.trace) Ps) (hrec : Recorded evs s s') :
    Joined s'.trace Ps :=
  fun P hP => hrec.sinceJoined.trans (h P hP)

variable {L L' L₁ : List LogPage} {last last' last₁ : LogPage} {E : LogEntry}

/-- An entry that is appended is the newest on its page, and the only one on a new page. -/
theorem Joined.extend (h : Joined trace (L ++ [last])) (hE : Extends L last E L' last' evs)
    (place : logPageOff E.off = last'.page) (apart : ((L' ++ [last']).map (·.page)).Nodup) :
    Joined (evs ++ trace) (L' ++ [last']) := by
  rw [List.map_append, List.map_singleton, List.nodup_append'] at apart
  have hne {P : LogPage} (hP : P ∈ L') : last'.page ≠ P.page := fun hc =>
    apart.2.2 (List.mem_map_of_mem hP) (hc ▸ List.mem_singleton_self _)
  intro P hmem
  rcases List.mem_append.1 hmem with hP | hP
  · -- a page before the last is left alone
    have hsame : sinceJoined P.page (evs ++ trace) = sinceJoined P.page trace := by
      refine sinceJoined_of_outside (fun p hp => ?_) fun e he => ?_
      · rcases hE with ⟨rfl, rfl, rfl⟩ | ⟨rfl, rfl, rfl⟩
        · simp at hp
        · obtain rfl : p = E.off := by simpa using hp
          exact hne hP
      · obtain rfl : e = E.off := by rcases hE with ⟨-, -, rfl⟩ | ⟨-, -, rfl⟩ <;> simpa using he
        exact place ▸ hne hP
    rw [hsame]
    refine h P ?_
    rcases hE with ⟨rfl, -, -⟩ | ⟨rfl, -, -⟩
    · exact List.mem_append_left _ hP
    · exact hP
  · obtain rfl := List.mem_singleton.1 hP
    rcases hE with ⟨rfl, rfl, rfl⟩ | ⟨rfl, rfl, rfl⟩
    · have hlast := h last (List.mem_append_right _ (List.mem_singleton_self _))
      rw [List.singleton_append, sinceJoined, if_pos place]
      simp only
      rw [hlast, List.map_append, List.map_singleton]
    · rw [List.cons_append, sinceJoined, if_pos place, List.singleton_append,
        sinceJoined, if_pos rfl]
      rfl

theorem Evolves.joined (h : Evolves L last L' last' evs) (hjoined : Joined trace (L ++ [last])) :
    Joined (evs ++ trace) (L' ++ [last']) := by
  induction h with
  | refl => exact hjoined
  | extend _ hE place apart ih =>
    rw [List.append_assoc]
    exact ih.extend hE place apart
  | @remove K R P _ _ _ ih =>
    have hsub : (K ++ R).Sublist (K ++ P :: R) := (List.sublist_cons_self P R).append_left K
    exact ih.mono (hsub.append_right _).subset
  | release _ hev ih => exact ih.release hev

theorem Evolves.trans (h : Evolves L last L₁ last₁ evs) (h' : Evolves L₁ last₁ L' last' evs') :
    Evolves L last L' last' (evs' ++ evs) := by
  induction h' with
  | refl => exact h
  | extend _ hE place apart ih =>
    rw [List.append_assoc]
    exact ih.extend hE place apart
  | remove _ ih => exact ih.remove
  | release _ hev ih => exact ih.release hev

/-- Pages are opened for their first entry, and entries go to the last page or to a page opened. -/
theorem Evolves.touched (h : Evolves L last L' last' evs) :
    (last'.page = last.page ∨ .logPage last'.page ∈ evs) ∧
      ∀ e, .logEntry e ∈ evs → logPageOff e = last.page ∨ .logPage (logPageOff e) ∈ evs := by
  induction h with
  | refl => exact ⟨.inl rfl, fun e he => absurd he List.not_mem_nil⟩
  | @extend L₁ L' last₁ last' E evs evs' _ hE place _ ih =>
    obtain ⟨hlast, hentry⟩ := ih
    have hlast' : last'.page = last.page ∨ .logPage last'.page ∈ evs' ++ evs := by
      rcases hE with ⟨-, rfl, -⟩ | ⟨-, rfl, rfl⟩
      · exact hlast.imp_right (List.mem_append_right _)
      · exact .inr (by simp)
    refine ⟨hlast', fun e he => ?_⟩
    rcases List.mem_append.1 he with he | he
    · obtain rfl : e = E.off := by rcases hE with ⟨-, -, rfl⟩ | ⟨-, -, rfl⟩ <;> simpa using he
      rwa [place]
    · exact (hentry e he).imp_right (List.mem_append_right _)
  | remove _ ih => exact ih
  | @release _ _ _ ev _ hev ih =>
    refine ⟨ih.1.imp_right (List.mem_cons_of_mem _), fun e he => ?_⟩
    rcases List.mem_cons.1 he with rfl | he
    · simp [Event.isRelease] at hev
    · exact (ih.2 e he).imp_right (List.mem_cons_of_mem _)

end Trace

end Atfs

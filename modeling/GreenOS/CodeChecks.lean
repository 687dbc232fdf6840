import GreenOS.ThreadKnowledge

/-!
# The code keeps the discipline

Every function of `KernelCode` is checked. A function that only takes and gives
back locks ends with what it began with; the scan of the scheduler ends with the
lock of the best process, and `kfork` passes through the states of its child.
-/

namespace GreenOS.CodeChecks
open Programs Checked ProcTable KernelCode
open ThreadKnowledge

section Rules
variable {lk : ℕ → ℕ} {me : Option Slot} {α : Type} {Q : α → Know → Prop}
variable {h : List Lock} {r : Role} {s : List (Slot × Face)} {c : Option (Slot × Bool)}
variable {n : Option Chan} {w : Option (Option Chan × List Slot)} {t : List (Lock × Bool)}

variable {a : Know} {l : Lock} {f : Unit → P α} {i : Slot}

theorem check_cmd {x : Cmd} {f : Res x → P α} (hp : pre lk me a x)
    (hf : ∀ v, Check lk me (post me a x v) (f v) Q) : Check lk me a (cmd x >>= f) Q :=
  ⟨hp,hf⟩

theorem check_acquire (hl : ∀ l' ∈ h, rank l' < rank l)
    (hf : Check lk me ⟨l::h,r,s,c,n,w,if me = none then (l,true)::t else t⟩ (f ()) Q) :
    Check lk me ⟨h,r,s,c,n,w,t⟩ (acquire l >>= f) Q :=
  ⟨hl,fun _ => hf⟩

theorem check_release {h' : List Lock} (hl : l ∈ h) (hk : ¬ Keeps lk me ⟨h,r,s,c,n,w,t⟩ l)
    (hh : h.erase l = h')
    (hf : Check lk me ⟨h',r,s.filter (fun e => Lock.proc e.1 ≠ l),c,n,
      wakingAfter ⟨h,r,s,c,n,w,t⟩ l,if me = none then (l,false)::t else t⟩ (f ()) Q) :
    Check lk me ⟨h,r,s,c,n,w,t⟩ (release l >>= f) Q := by
  subst hh
  exact ⟨⟨hl,hk⟩,fun _ => hf⟩

theorem check_read {f : Proc → P α} (hi : Lock.proc i ∈ h)
    (hf : ∀ x, Check lk me ⟨h,r,(i,face x)::s,c,n,w,t⟩ (f x) Q) :
    Check lk me ⟨h,r,s,c,n,w,t⟩ (read i >>= f) Q := by
  refine ⟨trivial,fun x => ?_⟩
  have hpost : post me ⟨h,r,s,c,n,w,t⟩ (.read i) x = ⟨h,r,(i,face x)::s,c,n,w,t⟩ := if_pos hi
  rw [hpost]
  exact hf x

theorem check_peek {f : Proc → P α} (hi : Lock.proc i ∉ h)
    (hf : ∀ x, Check lk me ⟨h,r,s,c,n,w,t⟩ (f x) Q) :
    Check lk me ⟨h,r,s,c,n,w,t⟩ (read i >>= f) Q := by
  refine ⟨trivial,fun x => ?_⟩
  have hpost : post me ⟨h,r,s,c,n,w,t⟩ (.read i) x = ⟨h,r,s,c,n,w,t⟩ := if_neg hi
  rw [hpost]
  exact hf x

theorem check_update {u : Update} (hu : updateOk me ⟨h,r,s,c,n,w,t⟩ i u)
    (hf : Check lk me ⟨h,roleAfter ⟨h,r,s,c,n,w,t⟩ u,
      s.map (fun e => if e.1 = i then (i,faceAfter u e.2) else e),
      childAfter ⟨h,r,s,c,n,w,t⟩ i u,intentAfter ⟨h,r,s,c,n,w,t⟩ u,w,t⟩ (f ()) Q) :
    Check lk me ⟨h,r,s,c,n,w,t⟩ (update i u >>= f) Q :=
  ⟨hu,fun _ => hf⟩

theorem check_onlyIf {p : Prop} [Decidable p] {b : P Unit} {Q : Unit → Know → Prop}
    (hb : p → Check lk me a b Q) (ha : ¬ p → Q () a) : Check lk me a (onlyIf p b) Q := by
  unfold onlyIf
  split_ifs with hp
  · exact hb hp
  · exact checks_pure (ha hp)

theorem lockOf_ne_proc (lk : ℕ → ℕ) (chan : Option Chan) (i : Slot) : lockOf lk chan ≠ .proc i := by
  rcases chan with _ | (_ | _ | _) <;> simp [lockOf, tickslock]

/-- Nothing stands against giving back a lock when the thread is not switching,
not falling asleep, and not waking under that lock. -/
theorem not_keeps (hr : r = .running ∨ r = .hart)
    (hw : ∀ chan done, w = some (chan,done) → l ≠ lockOf lk chan) :
    ¬ Keeps lk me ⟨h,r,s,c,none,w,t⟩ l := by
  rintro (⟨p,z,-,hl,-⟩ | ⟨b,hl,-⟩ | ⟨b,hl,-⟩ | ⟨chan,p,-,hl,-⟩ | ⟨chan,done,hl,he⟩)
  · rcases hr with rfl | rfl <;> cases hl
  · rcases hr with rfl | rfl <;> cases hl
  · rcases hr with rfl | rfl <;> cases hl
  · cases hl
  · exact hw chan done hl he

end Rules

def Low (h : List Lock) : Prop := ∀ l ∈ h, rank l < 2

theorem low_nil : Low [] := by simp [Low]

theorem low_wait : Low [.wait] := by simp [Low, rank]

theorem low_cond (n : ℕ) : Low [.cond n] := by simp [Low, rank]

theorem low_lockOf (lk : ℕ → ℕ) (chan : Option Chan) : Low [lockOf lk chan] := by
  rcases chan with _ | (_ | _ | _) <;> simp [Low, lockOf, tickslock, rank]

variable {h : List Lock}

theorem low_rank (hh : Low h) (i : Slot) : ∀ l ∈ h, rank l < rank (.proc i) :=
  fun l hl => lt_of_lt_of_le (hh l hl) (Nat.le_add_left 2 i.val)

theorem low_not_mem (hh : Low h) (i : Slot) : Lock.proc i ∉ h := by
  intro hi
  have := hh _ hi
  simp [rank] at this

section Wakeup
variable {lk : ℕ → ℕ} {me : Option Slot} {h : List Lock} {r : Role}
variable {c : Option (Slot × Bool)}

def steady (h : List Lock) (r : Role) (c : Option (Slot × Bool))
    (w : Option (Option Chan × List Slot)) (t : List (Lock × Bool)) : Know :=
  ⟨h,r,[],c,none,w,t⟩

def Trails (me : Option Slot) (t t' : List (Lock × Bool)) : Prop := me = none ∨ t' = t

theorem trails_refl (t : List (Lock × Bool)) : Trails me t t := .inr rfl

theorem trails_ite (t : List (Lock × Bool)) (e : Lock × Bool) :
    Trails me t (if me = none then e::t else t) := by
  unfold Trails
  split_ifs with hm
  · exact .inl hm
  · exact .inr rfl

variable {t : List (Lock × Bool)} {chan : Option Chan}

theorem trails_trans {t' t'' : List (Lock × Bool)} (h : Trails me t t') (h' : Trails me t' t'') :
    Trails me t t'' := by
  rcases h with h | h
  · exact .inl h
  · rcases h' with h' | h'
    · exact .inl h'
    · exact .inr (h'.trans h)

theorem check_wakeSlot {done : List Slot} (i : Slot) (hh : Low h) (hr : r = .running ∨ r = .hart) :
    Check lk me (steady h r c (some (chan,done)) t) (wakeSlot chan i)
      (fun _ a => ∃ t', a = steady h r c (some (chan,i::done)) t' ∧ Trails me t t') := by
  have hfree : ∀ s t, ¬ Keeps lk me ⟨.proc i::h,r,s,c,none,some (chan,done),t⟩ (.proc i) := by
    intro s t
    refine not_keeps hr ?_
    rintro _ _ h'
    cases h'
    exact (lockOf_ne_proc lk chan i).symm
  refine check_acquire (low_rank hh i) (check_read List.mem_cons_self fun x => ?_)
  refine checks_then (Q := fun _ a => ∃ b, b ≠ (.sleeping,chan) ∧
    a = ⟨.proc i::h,r,[(i,b)],c,none,some (chan,done),if me = none then (.proc i,true)::t else t⟩)
    (check_onlyIf ?_ ?_) ?_
  · intro hx
    refine checks_perform ⟨hr,?_⟩ (fun _ => ⟨(.runnable,x.chan),by simp,?_⟩)
    · rw [← hx.1, ← hx.2]
      exact List.mem_cons_self
    · simp [post, roleAfter, childAfter, intentAfter, faceAfter, face]
  · intro hx
    exact ⟨face x,by simpa [face] using hx,rfl⟩
  · rintro _ _ ⟨b,hb,rfl⟩
    refine checks_perform ⟨List.mem_cons_self,hfree _ _⟩ (fun _ => ?_)
    refine ⟨_,?_,trails_trans (trails_ite t (.proc i,true)) (trails_ite _ (.proc i,false))⟩
    simp [post, steady, wakingAfter, trailAfter, hb]

theorem check_wakeFrom (hh : Low h) (hr : r = .running ∨ r = .hart) :
    ∀ (is : List Slot) {done : List Slot} {t : List (Lock × Bool)},
      Check lk me (steady h r c (some (chan,done)) t) (wakeFrom me chan is)
        (fun _ a => ∃ done' t', a = steady h r c (some (chan,done')) t' ∧ Trails me t t' ∧
          (∀ i ∈ done, i ∈ done') ∧ ∀ i ∈ is, i ∈ done' ∨ me = some i)
  | [], done, t => ⟨done,t,rfl,trails_refl t,fun _ h => h,by simp⟩
  | i::is, done, t => by
    refine checks_then (Q := fun _ a => ∃ done' t', a = steady h r c (some (chan,done')) t' ∧
      Trails me t t' ∧ (∀ j ∈ done, j ∈ done') ∧ (i ∈ done' ∨ me = some i)) (check_onlyIf ?_ ?_) ?_
    · intro _
      refine checks_mono (check_wakeSlot i hh hr) ?_
      rintro _ _ ⟨t',rfl,ht⟩
      exact ⟨i::done,t',rfl,ht,fun j hj => List.mem_cons_of_mem i hj,.inl List.mem_cons_self⟩
    · intro hi
      exact ⟨done,t,rfl,trails_refl t,fun _ h => h,.inr (not_not.mp hi).symm⟩
    · rintro _ _ ⟨done₁,t₁,rfl,ht₁,hsub₁,hi₁⟩
      refine checks_mono (check_wakeFrom hh hr is) ?_
      rintro _ _ ⟨done₂,t₂,rfl,ht₂,hsub₂,hi₂⟩
      refine ⟨done₂,t₂,rfl,trails_trans ht₁ ht₂,fun j hj => hsub₂ j (hsub₁ j hj),?_⟩
      intro j hj
      rcases List.mem_cons.mp hj with rfl | hj
      · exact hi₁.imp_left (hsub₂ j)
      · exact hi₂ j hj

theorem mem_slots (i : Slot) : i ∈ slots := List.mem_finRange i

theorem check_wakeup (hh : Low h) (hr : r = .running ∨ r = .hart) (hlk : lockOf lk chan ∈ h) :
    Check lk me (steady h r c none t) (wakeup me chan)
      (fun _ a => ∃ t', a = steady h r c none t' ∧ Trails me t t') := by
  have hcalled : pre lk me (steady h r c none t) (.note (.wakeupCalled chan)) := ⟨hlk,rfl,rfl⟩
  refine check_cmd hcalled fun _ => checks_then (check_wakeFrom hh hr slots) ?_
  rintro _ _ ⟨done,t',rfl,ht,-,hall⟩
  exact checks_perform ⟨hr,done,rfl,fun i => hall i (mem_slots i)⟩ (fun _ => ⟨t',rfl,ht⟩)

theorem check_signal {chan : Chan} (hr : r = .running ∨ r = .hart) :
    Check lk me (steady [] r c none t) (signal lk me chan)
      (fun _ a => ∃ t', a = steady [] r c none t' ∧ Trails me t t') := by
  refine check_acquire (by simp) (checks_then (check_wakeup (low_lockOf lk _) hr (by simp)) ?_)
  rintro _ _ ⟨t',rfl,ht⟩
  refine checks_perform ⟨List.mem_cons_self,not_keeps hr nofun⟩ (fun _ => ?_)
  refine ⟨_,?_,trails_trans (trails_ite t _) (trails_trans ht
    (trails_ite t' (lockOf lk (some chan),false)))⟩
  simp [post, steady, wakingAfter, trailAfter]

end Wakeup

section Process
variable {lk : ℕ → ℕ} {p i : Slot} {h : List Lock} {c : Option (Slot × Bool)} {α : Type}
variable {s : List (Slot × Face)} {Q : α → Know → Prop}

def still (h : List Lock) (c : Option (Slot × Bool)) : Know := ⟨h,.running,[],c,none,none,[]⟩

variable {l : Lock} {f : Unit → P α} {a : Know} {chan : Option Chan} {b : Bool} {n : ℕ}
variable {closing : List Section}

theorem free_still : ¬ Keeps lk (some p) ⟨h,.running,s,c,none,none,[]⟩ l :=
  not_keeps (.inl rfl) nofun

theorem check_take {r : Role} {n : Option Chan} {w : Option (Option Chan × List Slot)}
    (hl : ∀ l' ∈ h, rank l' < rank l) (hf : Check lk (some p) ⟨l::h,r,s,c,n,w,[]⟩ (f ()) Q) :
    Check lk (some p) ⟨h,r,s,c,n,w,[]⟩ (acquire l >>= f) Q :=
  check_acquire hl hf

theorem check_give (hs : ∀ e ∈ s, e.1 = i) (hf : Check lk (some p) (still h c) (f ()) Q) :
    Check lk (some p) ⟨.proc i::h,.running,s,c,none,none,[]⟩ (release (.proc i) >>= f) Q := by
  refine check_release List.mem_cons_self free_still (List.erase_cons_head _ _) ?_
  have hnil : s.filter (fun e => decide (Lock.proc e.1 ≠ .proc i)) = [] := by
    simpa [List.filter_eq_nil_iff] using hs
  rw [hnil]
  exact hf

theorem check_giveLast (hs : ∀ e ∈ s, e.1 = i) :
    Check lk (some p) ⟨.proc i::h,.running,s,c,none,none,[]⟩ (release (.proc i))
      (fun _ a => a = still h c) :=
  check_give (f := pure) hs (checks_pure rfl)

theorem check_drop (hf : Check lk (some p) (still h c) (f ()) Q) :
    Check lk (some p) (still (l::h) c) (release l >>= f) Q :=
  check_release List.mem_cons_self free_still (List.erase_cons_head _ _) hf

theorem check_mild {me : Option Slot} {u : Update} (hu : mild u = true)
    (hf : Check lk me a (f ()) Q) : Check lk me a (update i u >>= f) Q := by
  refine check_cmd (x := .update i u) ?_ (fun _ => ?_)
  · cases u <;> trivial
  · have hsees : a.sees.map (fun e => if e.1 = i then (i,faceAfter u e.2) else e) = a.sees := by
      refine (List.map_congr_left fun e _ => ?_).trans (List.map_id _)
      split_ifs with he
      · cases u <;> first | exact Prod.ext he.symm rfl | cases hu
      · rfl
    have hpost : post me a (.update i u) () = a := by
      simp only [post, hsees]
      cases u <;> first | rfl | cases hu
    exact hpost.symm ▸ hf

theorem check_sched (hf : Check lk (some p) (still [.proc p] c) (f ()) Q) :
    Check lk (some p) ⟨[.proc p],.left false,s,c,none,none,[]⟩ (sched p >>= f) Q :=
  check_cmd (x := .sched p) ⟨rfl,rfl,rfl,rfl,false,rfl,nofun⟩ (fun _ => hf)

theorem check_killed (hh : Low h) :
    Check lk (some p) (still h c) (killed p) (fun _ a => a = still h c) :=
  check_take (low_rank hh p) (check_read List.mem_cons_self fun _ =>
    check_give (by simp) (checks_pure rfl))

theorem check_setkilled :
    Check lk (some p) (still [] c) (setkilled p) (fun _ a => a = still [] c) :=
  check_take nofun (check_mild rfl (check_giveLast nofun))

theorem check_kkill (pid : ℤ) : ∀ is : List Slot,
    Check lk (some p) (still [] c) (kkill pid is) (fun _ a => a = still [] c)
  | [] => checks_pure rfl
  | i::is => by
    refine check_take nofun (check_read List.mem_cons_self fun x => ?_)
    split_ifs with hx
    · refine check_mild rfl (checks_then (Q := fun _ a => ∃ b,
        a = ⟨[.proc i],.running,[(i,b)],c,none,none,[]⟩) (check_onlyIf ?_ ?_) ?_)
      · intro hs
        refine checks_perform ⟨.inl rfl,x.chan,?_⟩ (fun _ => ⟨(.runnable,x.chan),?_⟩)
        · rw [← hs]
          exact List.mem_cons_self
        · simp [post, faceAfter, face, roleAfter, childAfter, intentAfter]
      · intro _
        exact ⟨face x,rfl⟩
      · rintro _ _ ⟨b,rfl⟩
        exact check_give (by simp) (checks_pure rfl)
    · exact check_give (by simp) (check_kkill pid is)

theorem check_energyInfo (pid : ℤ) : ∀ is : List Slot,
    Check lk (some p) (still [] c) (getEnergyInfo pid is) (fun _ a => a = still [] c)
  | [] => checks_pure rfl
  | i::is => by
    refine check_take nofun (check_read List.mem_cons_self fun x => ?_)
    split_ifs with hx
    · exact check_mild rfl (check_read List.mem_cons_self fun y =>
        check_give (by simp) (checks_pure rfl))
    · exact check_give (by simp) (check_energyInfo pid is)

theorem check_setBudget (n : ℤ) :
    Check lk (some p) (still [] c) (setEnergyBudget p n) (fun _ a => a = still [] c) := by
  unfold setEnergyBudget
  split_ifs
  · exact checks_pure rfl
  · exact check_take nofun (check_mild rfl (check_give nofun (checks_pure rfl)))

theorem check_yield : Check lk (some p) (still [] c) (yield p) (fun _ a => a = still [] c) :=
  check_take nofun (check_update ⟨rfl,rfl,List.mem_cons_self,rfl⟩
    (check_sched (check_giveLast nofun)))

theorem check_sleep {chan : Chan} (l : Lock) (hl : lockOf lk (some chan) = l) :
    Check lk (some p) (still [l] c) (sleep p chan l) (fun _ a => a = still [l] c) := by
  have hlow : Low [l] := hl ▸ low_lockOf lk (some chan)
  have hne : l ≠ .proc p := hl ▸ lockOf_ne_proc lk (some chan) p
  have hgive : ¬ Keeps lk (some p) ⟨[.proc p,l],.running,[],c,some chan,none,[]⟩ l := by
    rintro (⟨_,_,-,hx,-⟩ | ⟨_,hx,-⟩ | ⟨_,hx,-⟩ | ⟨_,_,hq,-,hx | hx⟩ | ⟨_,_,hx,-⟩)
    · cases hx
    · cases hx
    · cases hx
    · cases hq
      exact hne hx
    · cases hq
      exact hx.2 List.mem_cons_self
    · cases hx
  have hdrop : [Lock.proc p,l].erase l = [.proc p] := by simp [hne.symm]
  refine check_cmd (x := .note (.sleepCalled chan)) ⟨by simp [still, hl],rfl,rfl,rfl⟩ fun _ => ?_
  refine check_take (low_rank hlow p) (check_release (List.mem_cons_of_mem _ List.mem_cons_self)
    hgive hdrop ?_)
  refine check_update ⟨rfl,rfl,List.mem_cons_self,rfl⟩ (check_sched ?_)
  refine check_update ⟨rfl,rfl,List.mem_cons_self⟩ (check_give nofun ?_)
  exact checks_perform nofun (fun _ => rfl)

theorem check_chargeTick :
    Check lk (some p) (still [] c) (chargeTick p) (fun _ a => a = still [] c) :=
  check_take nofun (check_read List.mem_cons_self fun _ => check_mild rfl
    (check_give (by simp) (check_onlyIf (fun _ => check_yield) (fun _ => rfl))))

theorem check_wakeupBy (hh : Low h) (hlk : lockOf lk chan ∈ h) :
    Check lk (some p) (still h c) (wakeup (some p) chan) (fun _ a => a = still h c) := by
  refine checks_mono (check_wakeup hh (.inl rfl) hlk) ?_
  rintro _ _ ⟨t,rfl,ht⟩
  obtain rfl : t = [] := ht.resolve_left nofun
  rfl

theorem check_allocpid : Check lk (some p) ⟨[.proc i],.running,s,c,none,none,[]⟩ allocpid
    (fun _ a => a = ⟨[.proc i],.running,s,c,none,none,[]⟩) := by
  have hrank : ∀ l ∈ [Lock.proc i], rank l < rank .pid := by
    simp only [List.mem_singleton, rank, forall_eq]
    omega
  refine check_take hrank (check_cmd (x := .takePid) List.mem_cons_self fun _ => ?_)
  refine check_release List.mem_cons_self free_still (List.erase_cons_head _ _) (checks_pure ?_)
  simp [wakingAfter]

def Hatched (i : Slot) (b : Bool) (a : Know) : Prop :=
  ∃ s, (∀ e ∈ s, e.1 = i) ∧ a = ⟨[.proc i],.running,s,some (i,b),none,none,[]⟩

theorem check_unclaim {β : Type} {x : β} (ha : Hatched i b a) :
    Check lk (some p) a (do update i .free; release (.proc i); pure x)
      (fun y a => y = x ∧ a = still [] none) := by
  obtain ⟨s,hs,rfl⟩ := ha
  refine check_update ⟨.inl rfl,List.mem_cons_self,.inr ⟨b,rfl⟩⟩ ?_
  have hchild : childAfter ⟨[.proc i],.running,s,some (i,b),none,none,[]⟩ i .free = none :=
    if_pos rfl
  rw [hchild]
  refine check_give ?_ (checks_pure ⟨rfl,rfl⟩)
  simp only [List.mem_map, forall_exists_index, and_imp]
  rintro _ e he rfl
  simp [hs e he]

theorem check_allocFound :
    Check lk (some p) ⟨[.proc i],.running,[(i,.unused,chan)],none,none,none,[]⟩ (allocFound i)
      (fun x a => x = none ∧ a = still [] none ∨ x = some i ∧ Hatched i true a) := by
  refine checks_then check_allocpid ?_
  rintro pid _ rfl
  refine check_update ⟨.inl rfl,⟨chan,List.mem_cons_self⟩,rfl,nofun⟩ ?_
  have hborn : Hatched i false ⟨[.proc i],.running,[(i,.used,chan)],some (i,false),none,none,[]⟩ :=
    ⟨_,by simp,rfl⟩
  have hsees : ([(i,.unused,chan)] : List (Slot × Face)).map
      (fun e => if e.1 = i then (i,faceAfter (.alloc pid) e.2) else e) = [(i,.used,chan)] := by
    simp [faceAfter]
  rw [hsees]
  refine check_cmd (x := .choose) trivial fun a => check_mild rfl ?_
  split_ifs
  · exact checks_mono (check_unclaim hborn) (fun _ _ h => .inl h)
  · exact checks_mono (check_unclaim hborn) (fun _ _ h => .inl h)
  · exact check_cmd (x := .context i) rfl fun _ => check_mild rfl
      (checks_pure (.inr ⟨rfl,[(i,.used,chan)],by simp,rfl⟩))

theorem check_allocproc : ∀ is : List Slot,
    Check lk (some p) (still [] none) (allocproc is)
      (fun x a => x = none ∧ a = still [] none ∨ ∃ i, x = some i ∧ Hatched i true a)
  | [] => checks_pure (.inl ⟨rfl,rfl⟩)
  | i::is => by
    refine check_take nofun (check_read List.mem_cons_self fun x => ?_)
    split_ifs with hx
    · have hface : face x = (.unused,x.chan) := by rw [← hx]; rfl
      rw [hface]
      exact checks_mono check_allocFound (fun _ _ h => h.imp_right (fun h => ⟨i,h⟩))
    · exact check_give (by simp) (check_allocproc is)

theorem check_readOwn {f : Proc → P α} (ha : Hatched i b a)
    (hf : ∀ x a', Hatched i b a' → Check lk (some p) a' (f x) Q) :
    Check lk (some p) a (read p >>= f) Q := by
  obtain ⟨s,hs,rfl⟩ := ha
  by_cases hp : p = i
  · subst hp
    refine check_read List.mem_cons_self fun x => hf x _ ⟨_,?_,rfl⟩
    intro e he
    rcases List.mem_cons.mp he with rfl | he
    · rfl
    · exact hs e he
  · exact check_peek (by simp [hp]) fun x => hf x _ ⟨s,hs,rfl⟩

theorem check_kfork : Check lk (some p) (still [] none) (kfork p) (fun _ a =>
    a = still [] none) := by
  refine checks_then (check_allocproc slots) ?_
  rintro _ a (⟨rfl,rfl⟩ | ⟨np,rfl,ha⟩)
  · exact checks_pure rfl
  · have hchoose : ∀ v, post (some p) a .choose v = a := fun _ => rfl
    refine check_cmd (x := .choose) trivial fun v => ?_
    rw [hchoose]
    split_ifs
    · exact checks_mono (check_unclaim ha) (fun _ _ h => h.2)
    · refine check_readOwn ha fun x a' ha' => check_mild rfl ?_
      obtain ⟨s,hs,rfl⟩ := ha'
      refine check_read List.mem_cons_self fun y => check_give (by simpa using hs) ?_
      refine check_take nofun (check_mild rfl (check_drop ?_))
      refine check_take nofun (check_update ⟨.inl rfl,List.mem_cons_self,rfl⟩ ?_)
      exact check_give nofun (checks_pure rfl)

theorem check_runAct (act : Act) (hact : KernelMachine.Act.fits lk n act) :
    Check lk (some p) (still [.cond n] c) (runAct p n act) (fun _ a => a = still [.cond n] c) := by
  cases act with
  | sleep chan => exact check_sleep (.cond n) hact
  | wakeup chan =>
    have hmem : lockOf lk (some chan) ∈ [Lock.cond n] := List.mem_singleton.mpr hact
    exact check_wakeupBy (low_cond n) hmem
  | killed =>
    refine checks_then (check_killed (low_cond n)) ?_
    rintro _ _ rfl
    exact checks_pure rfl

theorem check_runActs : ∀ acts : List Act,
    (∀ act ∈ acts, KernelMachine.Act.fits lk n act) →
    Check lk (some p) (still [.cond n] c) (runActs p n acts) (fun _ a => a = still [.cond n] c)
  | [], _ => checks_pure rfl
  | act::acts, hacts => by
    refine checks_then (check_runAct act (hacts act List.mem_cons_self)) ?_
    rintro _ _ rfl
    exact check_runActs acts (fun x hx => hacts x (List.mem_cons_of_mem act hx))

theorem check_runSections : ∀ secs : List Section,
    (∀ sec ∈ secs, KernelMachine.Section.Fits lk sec) →
    Check lk (some p) (still [] c) (runSections p secs) (fun _ a => a = still [] c)
  | [], _ => checks_pure rfl
  | sec::secs, hsecs => by
    refine check_take nofun (checks_then (check_runActs sec.acts (hsecs sec List.mem_cons_self)) ?_)
    rintro _ _ rfl
    exact check_drop (check_runSections secs (fun x hx => hsecs x (List.mem_cons_of_mem sec hx)))

theorem check_reparent : ∀ is : List Slot,
    Check lk (some p) (still [.wait] c) (reparent p is) (fun _ a => a = still [.wait] c)
  | [] => checks_pure rfl
  | i::is => by
    refine check_peek (low_not_mem low_wait i) fun x => checks_then (check_onlyIf ?_ ?_) ?_
      (Q := fun _ a => a = still [.wait] c)
    · intro _
      exact check_mild rfl (check_wakeupBy low_wait List.mem_cons_self)
    · intro _
      rfl
    · rintro _ _ rfl
      exact check_reparent is

theorem check_kexit (status : ℤ) (hc : ∀ sec ∈ closing, KernelMachine.Section.Fits lk sec) :
    Check lk (some p) (still [] none) (kexit p status closing : P α) Q := by
  unfold kexit
  split_ifs
  · exact ⟨.inr rfl,nofun⟩
  · refine checks_then (check_runSections closing hc) ?_
    rintro _ _ rfl
    refine check_mild rfl (check_take nofun (checks_then (check_reparent slots) ?_))
    rintro _ _ rfl
    refine check_peek (low_not_mem low_wait p) fun x => ?_
    have hlk : lockOf lk (x.parent.map Chan.proc) = .wait := by cases x.parent <;> rfl
    refine checks_then (check_wakeupBy low_wait (hlk ▸ List.mem_cons_self)) ?_
    rintro _ _ rfl
    refine check_take (low_rank low_wait p) (check_update ⟨rfl,rfl,List.mem_cons_self,rfl⟩ ?_)
    have hgive : ¬ Keeps lk (some p) ⟨[.proc p,.wait],.left true,[],none,none,none,[]⟩ .wait := by
      rintro (⟨_,_,-,-,hx⟩ | ⟨_,hx,-⟩ | ⟨_,hx,-⟩ | ⟨_,_,-,hx,-⟩ | ⟨_,_,hx,-⟩) <;> cases hx
    have herase : [Lock.proc p,.wait].erase .wait = [.proc p] := rfl
    refine check_release (List.mem_cons_of_mem _ List.mem_cons_self) hgive herase ?_
    refine check_cmd (x := .sched p) ⟨rfl,rfl,rfl,rfl,true,rfl,fun _ => rfl⟩ fun _ => ?_
    exact ⟨.inl rfl,nofun⟩

theorem check_trapReturn (hc : ∀ sec ∈ closing, KernelMachine.Section.Fits lk sec) :
    Check lk (some p) (still [] none) (trapReturn p closing) (Ends lk (some p)) := by
  refine checks_then (check_killed low_nil) ?_
  rintro b _ rfl
  split_ifs
  · exact check_kexit (-1) hc
  · exact checks_pure (.inr rfl)

theorem check_waitScan (addr : ℕ) : ∀ (is : List Slot) (havekids : Bool),
    Check lk (some p) (still [.wait] none) (waitScan p addr is havekids)
      (fun x a => a = if x = none then still [] none else still [.wait] none)
  | [], havekids => checks_pure rfl
  | i::is, havekids => by
    refine check_peek (low_not_mem low_wait i) fun x => ?_
    split_ifs
    · refine check_take (low_rank low_wait i) (check_read List.mem_cons_self fun y => ?_)
      split_ifs with hy
      · have hzombie : face y = (.zombie,y.chan) := by rw [← hy]; rfl
        rw [hzombie]
        refine check_cmd (x := .choose) trivial fun a => ?_
        split_ifs
        · exact check_give (by simp) (check_drop (checks_pure rfl))
        · refine check_update ⟨.inl rfl,List.mem_cons_self,.inl ⟨y.chan,List.mem_cons_self⟩⟩ ?_
          exact check_give (by simp) (check_drop (checks_pure rfl))
      · exact check_give (by simp) (check_waitScan addr is true)
    · exact check_waitScan addr is havekids

theorem check_waitLoop (addr : ℕ) (hc : ∀ sec ∈ closing, KernelMachine.Section.Fits lk sec) :
    Check lk (some p) (still [.wait] none) (waitLoop p addr closing) (Ends lk (some p)) := by
  refine checks_then (check_waitScan addr slots false) ?_
  rintro (_ | _ | _) _ rfl
  · exact check_trapReturn hc
  · exact check_drop (check_trapReturn hc)
  · refine checks_then (check_killed low_wait) ?_
    rintro b _ rfl
    split_ifs
    · exact check_drop (check_trapReturn hc)
    · refine checks_then (check_sleep .wait rfl) ?_
      rintro _ _ rfl
      exact checks_pure (.inr ⟨rfl,hc⟩)

theorem check_syscall (call : Call) (hc : ∀ sec ∈ closing, KernelMachine.Section.Fits lk sec)
    (hcall : KernelMachine.Call.Fits lk call) :
    Check lk (some p) (still [] none) (syscall p closing call) (Ends lk (some p)) := by
  have hret : ∀ {β : Type} (_ : β) (a : Know), a = still [] none →
      Check lk (some p) a (trapReturn p closing) (Ends lk (some p)) := by
    rintro β _ _ rfl
    exact check_trapReturn hc
  cases call with
  | fork => exact checks_then check_kfork hret
  | exit status => exact check_kexit status hc
  | wait addr => exact check_take nofun (checks_pure (.inr ⟨rfl,hc⟩))
  | kill pid => exact checks_then (check_kkill pid slots) hret
  | energyInfo pid => exact checks_then (check_energyInfo pid slots) hret
  | setBudget n => exact checks_then (check_setBudget n) hret
  | other secs => exact checks_then (check_runSections secs hcall) hret
  | fault => exact checks_then check_setkilled hret

theorem check_usertrap (call : Call) (hc : ∀ sec ∈ closing, KernelMachine.Section.Fits lk sec)
    (hcall : KernelMachine.Call.Fits lk call) :
    Check lk (some p) (still [] none) (usertrap p closing call) (Ends lk (some p)) := by
  have htest : Check lk (some p) (still [] none)
      (do if ← killed p then kexit p (-1) closing else syscall p closing call)
      (Ends lk (some p)) := by
    refine checks_then (check_killed low_nil) ?_
    rintro b _ rfl
    split_ifs
    · exact check_kexit (-1) hc
    · exact check_syscall call hc hcall
  cases call
  case fault => exact check_syscall .fault hc hcall
  all_goals exact htest

end Process

section Interrupt
variable {lk : ℕ → ℕ} {p : Slot} {c : Option (Slot × Bool)} {t : List (Lock × Bool)}

theorem check_signalBy (chan : Chan) :
    Check lk (some p) (still [] c) (signal lk (some p) chan) (fun _ a => a = still [] c) := by
  refine checks_mono (check_signal (.inl rfl)) ?_
  rintro _ _ ⟨t,rfl,ht⟩
  obtain rfl : t = [] := ht.resolve_left nofun
  rfl

theorem check_devintr (first : Bool) (src : Source) :
    Check lk (some p) (still [] c) (devintr lk first (some p) src) (fun _ a => a = still [] c) := by
  cases src with
  | timer =>
    refine checks_then (check_onlyIf (fun _ => check_signalBy .ticks) (fun _ => rfl)) ?_
    rintro _ _ rfl
    exact check_chargeTick
  | device chan => exact check_signalBy chan

theorem check_yieldAfter (src : Source) :
    Check lk (some p) (still [] c) (yieldAfter src (some p)) (fun _ a => a = still [] c) := by
  cases src with
  | timer => exact check_yield
  | device chan => exact checks_pure rfl

theorem check_kerneltrap (first : Bool) (src : Source) :
    Check lk (some p) (still [] c) (kerneltrap lk first (some p) src) (fun _ a =>
      a = still [] c) := by
  refine checks_then (check_devintr first src) ?_
  rintro _ _ rfl
  exact check_yieldAfter src

theorem check_usertrapIntr {closing : List Section} (first : Bool) (src : Source)
    (hc : ∀ sec ∈ closing, KernelMachine.Section.Fits lk sec) :
    Check lk (some p) (still [] none) (usertrapIntr lk first p closing src) (Ends lk (some p)) := by
  refine checks_then (check_devintr first src) ?_
  rintro _ _ rfl
  refine checks_then (check_killed low_nil) ?_
  rintro b _ rfl
  split_ifs
  · exact check_kexit (-1) hc
  · refine checks_then (check_yieldAfter src) ?_
    rintro _ _ rfl
    exact checks_pure (.inr rfl)

theorem check_hartIntr (first : Bool) (src : Source) :
    Check lk none (steady [] .hart none none t)
      (kerneltrap lk first none src >>= fun _ => pure .out) (Ends lk none) := by
  have hsig : ∀ chan t, Check lk none (steady [] .hart none none t) (signal lk none chan)
      (fun _ a => ∃ t', a = steady [] .hart none none t') := fun chan t =>
    checks_mono (check_signal (.inr rfl)) (fun _ _ ⟨t',h,_⟩ => ⟨t',h⟩)
  refine checks_then (Q := fun _ a => ∃ t', a = steady [] .hart none none t') ?_ ?_
  · cases src with
    | timer =>
      refine checks_then
        (checks_then (check_onlyIf (fun _ => hsig .ticks t) (fun _ => ⟨t,rfl⟩)) ?_) ?_
        (Q := fun _ a => ∃ t', a = steady [] .hart none none t')
      · rintro _ _ ⟨t',rfl⟩
        exact checks_pure ⟨t',rfl⟩
      · rintro _ _ ⟨t',rfl⟩
        exact checks_pure ⟨t',rfl⟩
    | device chan =>
      refine checks_then (hsig chan t) ?_
      rintro _ _ ⟨t',rfl⟩
      exact checks_pure ⟨t',rfl⟩
  · rintro _ _ ⟨t',rfl⟩
    exact checks_pure (.inr ⟨rfl,rfl,rfl⟩)

end Interrupt

section Scheduler
variable {lk : ℕ → ℕ}

/-- The scan has taken the locks of `done` once each, and released all of them
but the best one's. -/
def Tallied (t : List (Lock × Bool)) (done : List Slot) (best : Option Slot) : Prop :=
  ∀ l, t.count (l,true) = (if l ∈ done.map Lock.proc then 1 else 0) ∧
    t.count (l,false) = if l ∈ done.map Lock.proc ∧ best.map Lock.proc ≠ some l then 1 else 0

variable {t : List (Lock × Bool)} {done : List Slot} {i : Slot} {best : Option Slot}

theorem tallied_first (ht : Tallied t done none) (hi : i ∉ done) :
    Tallied ((.proc i,true)::t) (i::done) (some i) := by
  intro l
  obtain ⟨ht₁,ht₂⟩ := ht l
  by_cases hl : l = .proc i
  · subst hl
    simp_all
  · simp_all [eq_comm]

theorem tallied_better {b : Slot} (ht : Tallied t done (some b)) (hb : b ∈ done) (hi : i ∉ done) :
    Tallied ((.proc b,false)::(.proc i,true)::t) (i::done) (some i) := by
  intro l
  obtain ⟨ht₁,ht₂⟩ := ht l
  have hne : b ≠ i := fun h => hi (h ▸ hb)
  by_cases hl : l = .proc i
  · subst hl
    simp_all
  · by_cases hlb : l = .proc b
    · subst hlb
      simp_all [Ne.symm hne]
    · simp_all [eq_comm]

theorem tallied_worse (ht : Tallied t done best) (hb : ∀ b, best = some b → b ∈ done)
    (hi : i ∉ done) :
    Tallied ((.proc i,false)::(.proc i,true)::t) (i::done) best := by
  intro l
  obtain ⟨ht₁,ht₂⟩ := ht l
  have hne : best ≠ some i := fun h => hi (hb i h)
  by_cases hl : l = .proc i
  · subst hl
    simp_all
  · simp_all [eq_comm]

variable {α : Type} {Q : α → Know → Prop} {h h' : List Lock} {s s' : List (Slot × Face)}
variable {t : List (Lock × Bool)} {l : Lock} {f : Unit → P α}

theorem check_hartTake (hl : ∀ l' ∈ h, rank l' < rank l)
    (hf : Check lk none ⟨l::h,.hart,s,none,none,none,(l,true)::t⟩ (f ()) Q) :
    Check lk none ⟨h,.hart,s,none,none,none,t⟩ (acquire l >>= f) Q :=
  check_acquire hl hf

theorem check_hartGive (hl : l ∈ h) (hh : h.erase l = h')
    (hs : s.filter (fun e => Lock.proc e.1 ≠ l) = s')
    (hf : Check lk none ⟨h',.hart,s',none,none,none,(l,false)::t⟩ (f ()) Q) :
    Check lk none ⟨h,.hart,s,none,none,none,t⟩ (release l >>= f) Q := by
  subst hs
  exact check_release hl (not_keeps (.inr rfl) nofun) hh hf

def scanKnow (best : Option Slot) (chan : Option Chan) (t : List (Lock × Bool)) : Know :=
  ⟨(best.map Lock.proc).toList,.hart,(best.map (fun b => (b,.runnable,chan))).toList,
    none,none,none,t⟩

def Scanned (best : Option Slot) (a : Know) : Prop :=
  ∃ chan t done, a = scanKnow best chan t ∧ Tallied t done best

theorem check_scanFrom : ∀ (is : List Slot) (best : Option Slot) (bestPriority : ℤ)
    (chan : Option Chan) (t : List (Lock × Bool)) (done : List Slot), is.Pairwise (· < ·) →
    (∀ i ∈ is, ∀ j ∈ done, j < i) → Tallied t done best → (∀ b, best = some b → b ∈ done) →
    Check lk none (scanKnow best chan t) (scanFrom is best bestPriority) Scanned
  | [], best, _, chan, t, done, _, _, htal, _ => checks_pure ⟨chan,t,done,rfl,htal⟩
  | i::is, best, bestPriority, chan, t, done, hsort, hlt, htal, hbd => by
    obtain ⟨hhead,hsort'⟩ := List.pairwise_cons.mp hsort
    have hi : i ∉ done := fun hm => lt_irrefl i (hlt i List.mem_cons_self i hm)
    have hlt' : ∀ k ∈ is, ∀ j ∈ i::done, j < k := by
      intro k hk j hj
      rcases List.mem_cons.mp hj with rfl | hj
      · exact hhead k hk
      · exact hlt k (List.mem_cons_of_mem i hk) j hj
    have hnew : ∀ b, some i = some b → b ∈ i::done := fun b hb => by simp_all
    have hold : ∀ b, best = some b → b ∈ i::done := fun b hb => List.mem_cons_of_mem i (hbd b hb)
    have hbi : ∀ b, best = some b → b < i := fun b hb => hlt i List.mem_cons_self b (hbd b hb)
    have hrank : ∀ l ∈ (best.map Lock.proc).toList, rank l < rank (.proc i) := by
      intro l hl
      obtain ⟨b,hb,rfl⟩ : ∃ b, best = some b ∧ Lock.proc b = l := by simpa using hl
      exact Nat.add_lt_add_right (hbi b hb) 2
    -- an entry that is not better is given back, and the best one stays
    have hworse : ∀ x : Face, Check lk none
        ⟨.proc i::(best.map Lock.proc).toList,.hart,
          (i,x)::(best.map (fun b => (b,.runnable,chan))).toList,none,none,none,(.proc i,true)::t⟩
        (release (.proc i) >>= fun _ => scanFrom is best bestPriority) Scanned := by
      intro x
      refine check_hartGive List.mem_cons_self (List.erase_cons_head _ _) ?_
        (check_scanFrom is _ _ chan _ (i::done) hsort' hlt' (tallied_worse htal hbd hi) hold)
      cases best with
      | none => simp
      | some b => simp [(hbi b rfl).ne]
    refine check_hartTake hrank (check_read List.mem_cons_self fun x => ?_)
    split_ifs with hx
    · refine check_mild rfl ?_
      dsimp only
      split_ifs
      · have hface : face x = (.runnable,x.chan) := by rw [← hx]; rfl
        rw [hface]
        cases best with
        | none =>
          exact check_scanFrom is (some i) _ x.chan _ (i::done) hsort' hlt'
            (tallied_first htal hi) hnew
        | some b =>
          have hne := (hbi b rfl).ne
          have hheld : [Lock.proc i,.proc b].erase (.proc b) = [.proc i] := by simp [hne.symm]
          have hsees : ([(i,.runnable,x.chan),(b,.runnable,chan)] : List (Slot × Face)).filter
              (fun e => Lock.proc e.1 ≠ .proc b) = [(i,.runnable,x.chan)] := by simp [hne.symm]
          exact check_hartGive (List.mem_cons_of_mem _ List.mem_cons_self) hheld hsees
            (check_scanFrom is (some i) _ x.chan _ (i::done) hsort' hlt'
              (tallied_better htal (hbd b rfl) hi) hnew)
      · exact hworse _
    · exact hworse _

theorem released_tallied {t : List (Lock × Bool)} (h : Tallied t done best) : Released t best := by
  intro l hl
  obtain ⟨htrue,hfalse⟩ := h l
  have hdone : l ∈ done.map Lock.proc := by
    by_contra hno
    rw [if_neg hno] at htrue
    exact List.count_eq_zero.mp htrue hl
  rw [if_pos hdone] at htrue
  refine ⟨htrue,hfalse.trans ?_⟩
  by_cases hb : best.map Lock.proc = some l
  · rw [if_neg (fun h => h.2 hb), if_pos hb]
  · rw [if_pos ⟨hdone,hb⟩, if_neg hb]

theorem check_scheduler : Check lk none (steady [] .hart none none []) scheduler
    (Ends lk none) := by
  have hstart : Tallied [] [] none := fun l => by simp
  refine checks_then (check_scanFrom slots none (-1) none [] [] (List.pairwise_lt_finRange nproc)
    nofun hstart nofun) ?_
  rintro best _ ⟨chan,t,done,rfl,htal⟩
  have hnote : pre lk none (scanKnow best chan t) (.note (.scanned best)) := by
    refine ⟨rfl,released_tallied htal,rfl,?_⟩
    rintro b rfl
    exact ⟨chan,List.mem_cons_self⟩
  refine check_cmd hnote fun _ => ?_
  cases best with
  | none =>
    refine check_hartTake nofun
      (check_hartGive List.mem_cons_self (List.erase_cons_head _ _) rfl ?_)
    exact checks_pure (.inr ⟨rfl,rfl,rfl⟩)
  | some b =>
    have hidle : ∀ l ∈ [Lock.proc b], rank l < rank .idle := by
      simp only [List.mem_singleton, rank, forall_eq]
      omega
    refine check_cmd (x := .dispatch b) ⟨rfl,rfl,⟨chan,List.mem_cons_self⟩,rfl⟩ fun _ => ?_
    refine check_acquire hidle (check_release List.mem_cons_self ?_ (List.erase_cons_head _ _) ?_)
    · rintro (⟨_,_,hx,-⟩ | ⟨_,-,hx⟩ | ⟨_,-,hx⟩ | ⟨_,_,hx,-⟩ | ⟨_,_,hx,-⟩) <;> cases hx
    · refine check_cmd (x := .swtch b) ⟨rfl,rfl⟩ fun _ => ?_
      refine check_cmd (x := .collect) ⟨b,rfl⟩ fun _ => ?_
      refine check_hartGive List.mem_cons_self (List.erase_cons_head _ _) rfl ?_
      exact checks_pure (.inr ⟨rfl,rfl,rfl⟩)

end Scheduler

end GreenOS.CodeChecks

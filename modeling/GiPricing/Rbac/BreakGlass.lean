import GiPricing.Rbac.Grants

/-! # What break-glass leaves behind

Once every break-glass grant has expired, nothing of it is left, as long as each role was granted
on permissions that its granter does not hold for a time only.
-/

namespace GiPricing.Rbac

open Failure Transition

variable {roles : List RoleRow} {s s' t : Store} {workspace_id : UUID} {principal : Option UUID}
  {resource : Option ResourceRef} {credential : List Permission} {now : ℕ} {permission : Permission}

/-! ## Effective permissions -/

/-- An assignment that confers a permission to a principal on a resource. -/
def Confers (roles : List RoleRow) (workspace_id principal_id : UUID)
    (resource : Option ResourceRef) (now : ℕ) (permission : Permission) (a : RoleAssignmentRow) :
    Prop :=
  (a.workspace_id = workspace_id ∧ a.principal_id = principal_id ∧ a.live now = true ∧
    a.covers resource = true) ∧
    ∃ role ∈ roles, role.id = a.role_id ∧ permission ∈ role.permissions

theorem mem_effectivePermissions :
    permission ∈ s.effectivePermissions roles workspace_id principal resource credential now ↔
      ∃ principal_id, principal = some principal_id ∧
        ((∃ a ∈ s.assignments, Confers roles workspace_id principal_id resource now permission a) ∨
          permission ∈ credential) := by
  cases principal with
  | none => simp [Store.effectivePermissions]
  | some principal_id =>
    simp only [Store.effectivePermissions, List.mem_append, List.mem_flatMap, List.mem_filter,
      decide_eq_true_eq, Option.some.injEq, exists_eq_left', Confers, and_assoc]

theorem effectivePermissions_subset
    (h : ∀ a ∈ s.assignments, a.live now = true → a ∈ t.assignments) :
    s.effectivePermissions roles workspace_id principal resource credential now ⊆
      t.effectivePermissions roles workspace_id principal resource credential now := by
  intro permission hp
  obtain ⟨principal_id, rfl, hconferred⟩ := mem_effectivePermissions.mp hp
  refine mem_effectivePermissions.mpr ⟨principal_id, rfl, hconferred.imp_left ?_⟩
  rintro ⟨a, ha, hconfers⟩
  exact ⟨a, h a ha hconfers.1.2.2.1, hconfers⟩

def Store.withoutBreakGlass (s : Store) : Store :=
  { s with assignments := s.assignments.filter fun a => !a.break_glass }

def Store.permanent (s : Store) : Store :=
  { s with assignments := s.assignments.filter fun a => a.expires_at.isNone }

theorem permanent_subset : s.permanent.held roles workspace_id principal now ⊆
    s.withoutBreakGlass.held roles workspace_id principal now := by
  refine effectivePermissions_subset fun a ha _ => ?_
  simp only [Store.permanent, Store.withoutBreakGlass, List.mem_filter] at ha ⊢
  refine ⟨ha.1, ?_⟩
  cases hb : a.break_glass with
  | false => rfl
  | true =>
    have hsome := (a.boxed hb).1
    rw [Option.isNone_iff_eq_none.mp ha.2] at hsome
    cases hsome

/-! ## One call -/

/-- What the granter holds for a time only makes no difference to the checks of a grant: the right
to grant it has without break-glass, what the role confers it holds for good. -/
def Unaided (roles : List RoleRow) (s : Store) (g : RoleGrant) (now : ℕ) : Prop :=
  ∀ role, findRole roles g.workspace_id g.role_slug = some role →
    (.adminManageRoles ∈ s.held roles g.workspace_id g.granter now ∧
      role.permissions ⊆ s.held roles g.workspace_id g.granter now) →
    .adminManageRoles ∈ s.withoutBreakGlass.held roles g.workspace_id g.granter now ∧
      role.permissions ⊆ s.permanent.held roles g.workspace_id g.granter now

def UnaidedCall (roles : List RoleRow) (s : Store) (e : Event) : Prop := match e.call with
  | .grantRole g => Unaided roles s g e.now
  | _ => True

theorem grantRole_eq_ok {g : RoleGrant} {id : UUID} :
    grantRole roles s g id now = .ok s' ↔ ∃ role,
      findRole roles g.workspace_id g.role_slug = some role ∧
      .adminManageRoles ∈ s.held roles g.workspace_id g.granter now ∧
      role.permissions ⊆ s.held roles g.workspace_id g.granter now ∧
      s.add (g.assignment id role) = s' := by
  rw [grantRole, requirePermission, ensure_bind_eq_ok, require_bind_eq_ok]
  simp only [ensure_bind_eq_ok, pure_eq_ok]
  have hescalation : ∀ role : RoleRow,
      (role.permissions.filter fun p => p ∉ s.held roles g.workspace_id g.granter now) = [] ↔
        role.permissions ⊆ s.held roles g.workspace_id g.granter now := by
    intro role
    simp [List.filter_eq_nil_iff, List.subset_def]
  simp only [hescalation]
  constructor
  · rintro ⟨hm, role, hrole, hsub, h⟩
    exact ⟨role, hrole, hm, hsub, h⟩
  · rintro ⟨role, hrole, hm, hsub, h⟩
    exact ⟨hm, role, hrole, hsub, h⟩

theorem grantBreakGlass_eq_ok {g : BreakGlassGrant} {id : UUID}
    (h : grantBreakGlass roles s g id now = .ok s') :
    ∃ role, s' = s.add (g.assignment id role now) := by
  rw [grantBreakGlass, requirePermission, ensure_bind_eq_ok, ensure_bind_eq_ok,
    ensure_bind_eq_ok, require_bind_eq_ok] at h
  obtain ⟨-, -, -, role, -, h⟩ := h
  exact ⟨role, (pure_eq_ok.mp h).symm⟩

/-- The other store keeps every assignment that is not break-glass, and has drawn no other ids. -/
structure Keeps (s t : Store) : Prop where
  assignments : ∀ a ∈ s.assignments, a.break_glass = false → a ∈ t.assignments
  drawn : t.drawn ⊆ s.drawn

theorem Keeps.held_subset (h : Keeps s t) : s.withoutBreakGlass.held roles workspace_id principal now ⊆
    t.held roles workspace_id principal now := by
  refine effectivePermissions_subset fun a ha _ => ?_
  simp only [Store.withoutBreakGlass, List.mem_filter, Bool.not_eq_eq_eq_not, Bool.not_true] at ha
  exact h.assignments a ha.1 ha.2

theorem Keeps.grantRole (h : Keeps s t) {g : RoleGrant} {id : UUID}
    (hg : Unaided roles s g now) (hok : grantRole roles s g id now = .ok s') :
    ∃ role, s' = s.add (g.assignment id role) ∧
      grantRole roles t g id now = .ok (t.add (g.assignment id role)) := by
  obtain ⟨role, hrole, hm, hsub, rfl⟩ := grantRole_eq_ok.mp hok
  obtain ⟨hm', hsub'⟩ := hg role hrole ⟨hm, hsub⟩
  exact ⟨role, rfl, grantRole_eq_ok.mpr ⟨role, hrole, h.held_subset hm',
    fun p hp => h.held_subset (permanent_subset (hsub' hp)), rfl⟩⟩

theorem mem_add {a b : RoleAssignmentRow} : b ∈ (s.add a).assignments ↔ b ∈ s.assignments ∨ b = a := by
  rw [Store.add, List.mem_append, List.mem_singleton]

theorem mem_attempt {result : Except Refusal Store} {a : RoleAssignmentRow}
    (h : ∀ q, result = .ok q → a ∈ q.assignments) (ha : a ∈ s.assignments) :
    a ∈ (s.attempt result).assignments := by
  cases result with
  | error e => exact ha
  | ok q => exact h q rfl

/-- A call keeps the assignments of a store that only break-glass is missing from. -/
theorem Keeps.call (h : Keeps s t) {e : Event} (he : UnaidedCall roles s e)
    (hbg : e.call.isBreakGlass = false) :
    ∀ a ∈ (s.call roles e).assignments, a.break_glass = false →
      a ∈ (t.call roles e).assignments := by
  obtain ⟨c, id, now⟩ := e
  intro a ha hab
  cases c with
  | grantRole g =>
    simp only [Store.call] at ha ⊢
    cases hok : Rbac.grantRole roles s g id now with
    | error refusal =>
      rw [hok] at ha
      refine mem_attempt (fun q hq => ?_) (h.assignments a ha hab)
      obtain ⟨role, -, -, -, rfl⟩ := grantRole_eq_ok.mp hq
      exact mem_add.mpr (Or.inl (h.assignments a ha hab))
    | ok q =>
      obtain ⟨role, rfl, ht⟩ := h.grantRole he hok
      rw [hok] at ha
      rw [ht]
      exact mem_add.mpr ((mem_add.mp ha).imp_left fun ha => h.assignments a ha hab)
  | grantBreakGlass g => cases hbg
  | revoke target =>
    obtain ⟨b, hb, rfl⟩ := List.mem_map.mp ha
    have hbb : b.break_glass = false := by
      revert hab
      simp only
      split_ifs <;> exact fun hbb => hbb
    exact List.mem_map.mpr ⟨b, h.assignments b hb hbb, rfl⟩

theorem Keeps.step (h : Keeps s t) {e : Event} (he : UnaidedCall roles s e)
    (hbg : e.call.isBreakGlass = false) (hs : step roles s e = some s') :
    ∃ t', step roles t e = some t' ∧ Keeps s' t' := by
  unfold Rbac.step at hs ⊢
  split_ifs at hs with hdrawn
  cases hs
  refine ⟨_, if_neg fun hd => hdrawn (h.drawn hd), h.call he hbg, ?_⟩
  exact List.cons_subset_cons e.id h.drawn

/-- A break-glass grant is nothing to the other store. -/
theorem Keeps.skip (h : Keeps s t) {e : Event} (hbg : e.call.isBreakGlass = true)
    (hs : Rbac.step roles s e = some s') : Keeps s' t := by
  unfold Rbac.step at hs
  split_ifs at hs
  cases hs
  obtain ⟨c, id, now⟩ := e
  cases c with
  | grantRole g => cases hbg
  | revoke target => cases hbg
  | grantBreakGlass g =>
    refine ⟨fun a ha hab => ?_, List.Subset.trans h.drawn (List.subset_cons_self _ _)⟩
    simp only [Store.call] at ha
    cases hok : grantBreakGlass roles s g id now with
    | error refusal =>
      rw [hok] at ha
      exact h.assignments a ha hab
    | ok q =>
      obtain ⟨role, rfl⟩ := grantBreakGlass_eq_ok hok
      rw [hok] at ha
      rcases mem_add.mp ha with ha | rfl
      · exact h.assignments a ha hab
      · cases hab

/-! ## Runs -/

theorem keeps_withoutBreakGlass (s : Store) : Keeps s s.withoutBreakGlass where
  assignments a ha hb := List.mem_filter.mpr ⟨ha, by rw [hb]; rfl⟩
  drawn := List.Subset.refl _

theorem Keeps.run (h : Keeps s t) {es : List Event}
    (hall : Always (Rbac.step roles) (fun s e _ => UnaidedCall roles s e) s es)
    (hs : run (Rbac.step roles) s es = some s') :
    ∃ t', run (Rbac.step roles) t (es.filter fun e => !e.call.isBreakGlass) = some t' ∧
      Keeps s' t' := by
  induction es generalizing s t with
  | nil =>
    cases hs
    exact ⟨t, rfl, h⟩
  | cons e es ih =>
    obtain ⟨u, hu, hs⟩ := run_cons_eq_some.mp hs
    obtain ⟨he, hall⟩ := hall u hu
    cases hbg : e.call.isBreakGlass with
    | true =>
      rw [List.filter_cons_of_neg (by simp [hbg])]
      exact ih (h.skip hbg hu) hall hs
    | false =>
      obtain ⟨t', ht', hk⟩ := h.step he hbg hu
      obtain ⟨t'', ht'', hk⟩ := ih hk hall hs
      rw [List.filter_cons_of_pos (by simp [hbg])]
      exact ⟨t'', run_cons_eq_some.mpr ⟨t', ht', ht''⟩, hk⟩

/-- Every break-glass assignment has expired. -/
def BreakGlassExpired (s : Store) (now : ℕ) : Prop :=
  ∀ a ∈ s.assignments, a.break_glass = true → a.expires_at.any (· ≤ now) = true

instance (s : Store) (now : ℕ) : Decidable (BreakGlassExpired s now) :=
  inferInstanceAs (Decidable (∀ a ∈ s.assignments, a.break_glass = true → _))

/-- What a grant confers its granter holds through assignments that do not expire. -/
def ConfersPermanent (roles : List RoleRow) (s : Store) (e : Event) : Prop :=
  ∀ g s', e.call = .grantRole g → grantRole roles s g e.id e.now = .ok s' →
    ∀ role, findRole roles g.workspace_id g.role_slug = some role →
      role.permissions ⊆ s.permanent.held roles g.workspace_id g.granter e.now

/-- Of a run from `s` to `s'`: once break-glass has expired, nobody may do more than in the run
without it, and each role granted confers what its granter holds for good. -/
def TimeBoxed (roles : List RoleRow) (s : Store) (es : List Event) (s' : Store) : Prop :=
  (∃ t, run (step roles) s.withoutBreakGlass (es.filter fun e => !e.call.isBreakGlass) = some t ∧
    ∀ now, BreakGlassExpired s' now → ∀ workspace_id principal resource credential,
      s'.effectivePermissions roles workspace_id principal resource credential now ⊆
        t.effectivePermissions roles workspace_id principal resource credential now) ∧
  Always (step roles) (fun s e _ => ConfersPermanent roles s e) s es

theorem always_confersPermanent {es : List Event}
    (h : Always (step roles) (fun s e _ => UnaidedCall roles s e) s es) :
    Always (step roles) (fun s e _ => ConfersPermanent roles s e) s es := by
  induction es generalizing s with
  | nil => trivial
  | cons e es ih =>
    intro s' hs
    obtain ⟨he, hrest⟩ := h s' hs
    refine ⟨fun g q hcall hok role hrole => ?_, ih hrest⟩
    rw [UnaidedCall, hcall] at he
    obtain ⟨role', hrole', hm, hsub, -⟩ := grantRole_eq_ok.mp hok
    obtain rfl : role' = role := Option.some.inj (hrole'.symm.trans hrole)
    exact (he role' hrole ⟨hm, hsub⟩).2

/-- A run whose roles are granted without the help of what is held for a time is time-boxed. -/
theorem timeBoxed_of_unaided (roles : List RoleRow) (s : Store) (es : List Event) (s' : Store)
    (hs : run (step roles) s es = some s')
    (hall : Always (step roles) (fun s e _ => UnaidedCall roles s e) s es) :
    TimeBoxed roles s es s' := by
  refine ⟨?_, always_confersPermanent hall⟩
  obtain ⟨t, ht, hk⟩ := (keeps_withoutBreakGlass s).run hall hs
  refine ⟨t, ht, fun now hexpired workspace_id principal resource credential => ?_⟩
  refine effectivePermissions_subset fun a ha hlive => ?_
  cases hb : a.break_glass with
  | false => exact hk.assignments a ha hb
  | true =>
    have hpast := hexpired a ha hb
    obtain ⟨e, he⟩ := Option.isSome_iff_exists.mp (a.boxed hb).1
    simp only [he, Option.any_some, decide_eq_true_eq] at hpast
    simp only [RoleAssignmentRow.live, he, Option.all_some, Bool.and_eq_true,
      decide_eq_true_eq] at hlive
    omega

/-! ## An administrator and an approver -/

def adminRole : RoleRow := ⟨1, 1, "admin", [.auditRead, .adminManageRoles, .adminBreakGlass]⟩

def approverRole : RoleRow := ⟨2, 1, "approver", [.auditRead, .approvalDecide]⟩

theorem plain_boxed : false = true →
    (none : Option ℕ).isSome = true ∧ (none : Option String).isSome = true :=
  fun h => absurd h Bool.false_ne_true

def oneAdmin : Store :=
  ⟨[⟨10, 1, 100, 1, .workspace, none, none, none, false, none, plain_boxed⟩], [10]⟩

theorem oneAdmin_timeBoxed : ∃ es s', run (step [adminRole, approverRole]) oneAdmin es = some s' ∧
    TimeBoxed [adminRole, approverRole] oneAdmin es s' := by
  refine ⟨[⟨.grantBreakGlass ⟨1, some 100, 101, "approver", "outage", 1⟩, 11, 0⟩,
    ⟨.grantRole ⟨1, some 100, 102, "admin", .workspace⟩, 12, 60⟩], _, rfl, ?_⟩
  refine timeBoxed_of_unaided _ _ _ _ rfl fun s₁ h₁ => ⟨trivial, fun s₂ h₂ => ⟨?_, trivial⟩⟩
  cases h₁
  intro role hrole _
  cases hrole
  decide

/-- An administrator breaks the glass to be an approver for an hour and grants itself the role in
that hour: the role stays. -/
theorem approver_outlives_breakGlass : ¬ ∀ roles s es s', run (step roles) s es = some s' →
    TimeBoxed roles s es s' := by
  intro h
  obtain ⟨⟨t, ht, hsubset⟩, -⟩ := h [adminRole, approverRole] oneAdmin
    [⟨.grantBreakGlass ⟨1, some 100, 100, "approver", "outage", 1⟩, 11, 0⟩,
      ⟨.grantRole ⟨1, some 100, 100, "approver", .workspace⟩, 12, 60⟩] _ rfl
  cases ht
  exact absurd (hsubset 3600 (by decide) 1 (some 100) none []) (by decide)

end GiPricing.Rbac

import CatalogUi.Proofs.LiveSession
import CatalogUi.Proofs.Rendition

/-!
Views that are up to date. A view is due until it is asked for the first time, and whenever the data
have changed since it was asked last. At every moment of a session the stale views are those that are
due, and the others hold the pass that rendering would give; so a view always answers with a fresh
pass, and renders only when it is due.
-/

namespace CatalogUi

namespace Session

variable {O σ : Type}

/-- A view was never asked, or the data have changed since it was asked last. -/
def Due (id : ListenerId) (events : List Event) : Prop :=
  .asked id ∉ events ∨
    ∃ before p value after, events = before ++ .changed p value :: after ∧ .asked id ∉ after

variable {s t : Session O σ} {events : List Event} {event : Event} {v w : LiveView O}
  {id : ListenerId} {p : Path} {value : Value}

/-! ## When a view is due -/

/-- In a list with one more item, what stands somewhere is that item or stood there before. -/
theorem concat_eq_append_cons {α : Type} {items before after : List α} {a b : α}
    (h : items ++ [a] = before ++ b :: after) :
    after = [] ∧ a = b ∨ ∃ rest, after = rest ++ [a] ∧ items = before ++ b :: rest := by
  rcases List.eq_nil_or_concat after with rfl | ⟨rest, last, rfl⟩
  · exact .inl ⟨rfl, List.singleton_inj.1 (List.append_inj' h rfl).2⟩
  · rw [List.concat_eq_append, ← List.cons_append, ← List.append_assoc] at h
    obtain ⟨hitems, hlast⟩ := List.append_inj' h rfl
    exact .inr ⟨rest, by rw [List.concat_eq_append, hlast], hitems⟩

theorem due_asked : ¬ Due id (events ++ [.asked id]) := by
  rintro (hnever | ⟨before, p, value, after, heq, hnever⟩)
  · exact hnever (List.mem_append_right _ (List.mem_singleton_self _))
  · rcases concat_eq_append_cons heq with ⟨-, hlast⟩ | ⟨rest, rfl, -⟩
    · cases hlast
    · exact hnever (List.mem_append_right _ (List.mem_singleton_self _))

theorem due_changed : Due id (events ++ [.changed p value]) :=
  .inr ⟨events, p, value, [], rfl, List.not_mem_nil⟩

theorem due_concat (hasked : event ≠ .asked id) (hchanged : ∀ p value, event ≠ .changed p value) :
    Due id (events ++ [event]) ↔ Due id events := by
  have hmem (more : List Event) : .asked id ∈ more ++ [event] ↔ .asked id ∈ more := by
    rw [List.mem_append, List.mem_singleton, or_iff_left hasked.symm]
  rw [Due, Due, hmem]
  refine or_congr_right ⟨?_, ?_⟩
  · rintro ⟨before, p, value, after, heq, hnever⟩
    rcases concat_eq_append_cons heq with ⟨-, hlast⟩ | ⟨rest, rfl, hevents⟩
    · exact absurd hlast (hchanged p value)
    · exact ⟨before, p, value, rest, hevents, (hmem rest).not.1 hnever⟩
  · rintro ⟨before, p, value, after, rfl, hnever⟩
    exact ⟨before, p, value, after ++ [event], by simp, (hmem after).not.2 hnever⟩

/-! ## Up to date -/

/-- A view is stale when it is due, and otherwise it holds a fresh pass. -/
structure UpToDate (events : List Event) (s : Store (Board σ)) (v : LiveView O) : Prop where
  stale_iff : v.isStale s = true ↔ Due v.listener events
  fresh : v.isStale s = false → v.last = some (v.rendered s)

/-- All views of a session are up to date. -/
structure InStep (events : List Event) (s : Session O σ) : Prop where
  paired : Paired s
  asked_below : ∀ id, .asked id ∈ events → id.number < s.store.nextListener
  upToDate : ∀ v ∈ s.views, UpToDate events s.store v

theorem InStep.start (data : Value) (rest : σ) : InStep [] (start data rest : Session O σ) :=
  ⟨.start data rest, nofun, nofun⟩

theorem UpToDate.of_unmoved {s t : Store (Board σ)} (hw : UpToDate events s w)
    (h : w.Unmoved s t) (hasked : event ≠ .asked w.listener)
    (hchanged : ∀ p value, event ≠ .changed p value) : UpToDate (events ++ [event]) t w where
  stale_iff := by rw [h.isStale_eq, hw.stale_iff, due_concat hasked hchanged]
  fresh := by
    rw [h.isStale_eq, h.rendered_eq]
    exact hw.fresh

theorem UpToDate.pass {s : Store (Board σ)} (hv : UpToDate events s v) :
    (v.current s).1 = v.rendered s := by
  cases h : v.isStale s with
  | true => rw [LiveView.current_of_stale h]
  | false =>
    obtain ⟨pass, hlast, hcurrent⟩ := LiveView.exists_pass h
    rw [hcurrent]
    exact Option.some.inj (hlast.symm.trans (hv.fresh h))

/-- A view that was just asked is not stale. -/
theorem upToDate_asked {s : Store (Board σ)} (hv : UpToDate events s v) (hattached : v.Attached s) :
    UpToDate (events ++ [.asked v.listener]) (v.current s).2.2
      { v with last := some (v.current s).1 } := by
  have hrendered : v.rendered (v.current s).2.2 = (v.current s).1 := by
    obtain ⟨board, hstore, -⟩ := v.current_store s
    rw [hv.pass, hstore]
    rfl
  have hstale : ({ v with last := some (v.current s).1 } : LiveView O).isStale (v.current s).2.2 =
      false := by
    cases h : v.isStale s with
    | true =>
      rw [LiveView.current_of_stale h, LiveView.isStale, Board.mark?_set_self hattached.marked]
      rfl
    | false =>
      obtain ⟨pass, -, hcurrent⟩ := LiveView.exists_pass h
      rw [LiveView.isStale, Bool.or_eq_false_iff] at h
      rw [hcurrent]
      exact h.2
  exact ⟨by simp [hstale, due_asked], fun _ => congrArg some hrendered.symm⟩

theorem InStep.upToDate_does (hs : InStep events s) (h : Does s event t) :
    ∀ w ∈ t.views, UpToDate (events ++ [event]) t.store w := by
  have hpaired := hs.paired
  intro w hw
  cases h with
  | attached tree registry =>
    rcases List.mem_append.1 hw with hw | hw
    · exact (hs.upToDate w hw).of_unmoved
        ((hpaired.attached w hw).unmoved_attach tree registry) nofun nofun
    · rw [List.mem_singleton.1 hw]
      -- Nobody was asked under the id that is given out.
      have hnever : .asked ⟨s.store.nextListener⟩ ∉ events :=
        fun hmem => Nat.lt_irrefl _ (hs.asked_below _ hmem)
      have hdue : Due ⟨s.store.nextListener⟩ (events ++ [.attached ⟨s.store.nextListener⟩]) ↔
          Due ⟨s.store.nextListener⟩ events := due_concat nofun nofun
      exact ⟨iff_of_true rfl (hdue.2 (.inl hnever)), nofun⟩
  | listened listen =>
    exact (hs.upToDate w hw).of_unmoved (w.unmoved_subscribe s.store _) nofun nofun
  | @asked v hv =>
    rcases mem_views_asked hw with rfl | ⟨hw, hne⟩
    · exact upToDate_asked (hs.upToDate v hv) (hpaired.attached v hv)
    · refine (hs.upToDate w hw).of_unmoved
        (LiveView.unmoved_current (hpaired.mark_ne hv hw hne)) ?_ nofun
      exact fun heq => hne (Event.asked.inj heq).symm
  | @detached v hv =>
    obtain ⟨hw, hne⟩ := mem_views_filter.1 hw
    exact (hs.upToDate w hw).of_unmoved
      (LiveView.unmoved_detach (hpaired.mark_ne hv hw hne) hne) nofun nofun
  | @dropped v hv =>
    obtain ⟨hw, hne⟩ := mem_views_filter.1 hw
    exact (hs.upToDate w hw).of_unmoved
      (LiveView.unmoved_drop (hpaired.mark_ne hv hw hne)) nofun nofun
  | changed h =>
    obtain ⟨-, hstale⟩ := Store.attached_of_write hpaired.kept (hpaired.attached w hw) h
    exact ⟨iff_of_true hstale due_changed, fun hfalse => absurd hfalse (by simp [hstale])⟩
  | refused =>
    exact (hs.upToDate w hw).of_unmoved (.refl w s.store) nofun nofun

theorem InStep.does (hs : InStep events s) (h : Does s event t) : InStep (events ++ [event]) t where
  paired := hs.paired.does h
  upToDate := hs.upToDate_does h
  asked_below id hmem := by
    refine Nat.lt_of_lt_of_le ?_ (h.later hs.paired).nextListener_le
    rcases List.mem_append.1 hmem with hmem | hmem
    · exact hs.asked_below id hmem
    · cases List.mem_singleton.1 hmem
      cases h with
      | @asked v hv =>
        exact hs.paired.kept.numbered.below _ (List.mem_map_of_mem (hs.paired.attached v hv).listens)

/-! ## Every moment of a session -/

/-- What holds of a view at a moment of a session, and what its operations do. -/
structure Live (events : List Event) (s : Session O σ) (v : LiveView O) : Prop where
  pass : (v.current s.store).1 = v.rendered s.store
  stale_iff : v.isStale s.store = true ↔ Due v.listener events
  current_eq : v.current s.store = Id.run (v.currentBy (fun v s => pure (v.rendered s)) s.store)
  renders : ∀ count, Due v.listener events →
    (v.currentBy LiveView.counting s.store).run count = (v.current s.store, count + 1)
  rests : ∀ count, ¬ Due v.listener events →
    (v.currentBy LiveView.counting s.store).run count = (v.current s.store, count)
  others : ∀ w ∈ s.views, w.listener ≠ v.listener →
    ∀ operation ∈ [Operation.current v.listener, .detach v.listener, .drop v.listener],
      w ∈ (s.perform operation).views ∧
      w.isStale (s.perform operation).store = w.isStale s.store ∧
      (w.current (s.perform operation).store).1 = (w.current s.store).1
  detach : (v.detach s.store).1 = true ∧ ∃ before after,
    s.store.listeners = before ++ (v.listener, Board.listener v.mark) :: after ∧
    (s.perform (.detach v.listener)).store.listeners = before ++ after
  drop : ∀ operations p value,
    .changed p value ∈ (s.perform (.drop v.listener)).history operations →
    v.listener ∉ ((s.perform (.drop v.listener)).run operations).store.ids

/-- A listener without its mark is on its way out, and once the data have changed it is gone. -/
structure Fading (id : ListenerId) (events : List Event) (s : Session O σ) : Prop where
  paired : Paired s
  leaving : s.store.Leaving id
  gone : ∀ p value, .changed p value ∈ events → id ∉ s.store.ids

theorem Fading.does (hs : Fading id events s) (h : Does s event t) :
    Fading id (events ++ [event]) t where
  paired := hs.paired.does h
  leaving := hs.leaving.later (h.later hs.paired)
  gone p value hmem := by
    rcases List.mem_append.1 hmem with hmem | hmem
    · exact hs.leaving.not_mem_later (h.later hs.paired) (hs.gone p value hmem)
    · cases List.mem_singleton.1 hmem
      cases h with
      | changed h => exact hs.leaving.not_mem_of_write hs.paired.kept h

/-- A view that is there before and after an event that does not touch it answers as before. -/
theorem InStep.same_of_unmoved (hs : InStep events s) (h : Does s event t) (hw : w ∈ s.views)
    (hw' : w ∈ t.views) (hunmoved : w.Unmoved s.store t.store) :
    w ∈ t.views ∧ w.isStale t.store = w.isStale s.store ∧
      (w.current t.store).1 = (w.current s.store).1 := by
  refine ⟨hw', hunmoved.isStale_eq, ?_⟩
  calc (w.current t.store).1
    _ = w.rendered t.store := ((hs.does h).upToDate w hw').pass
    _ = w.rendered s.store := hunmoved.rendered_eq
    _ = (w.current s.store).1 := (hs.upToDate w hw).pass.symm

/-- What is done with one view leaves the others as they are. -/
theorem InStep.others (hs : InStep events s) (hv : v ∈ s.views) (hw : w ∈ s.views)
    (hne : w.listener ≠ v.listener) {operation : Operation O σ}
    (h : operation ∈ [.current v.listener, .detach v.listener, .drop v.listener]) :
    w ∈ (s.perform operation).views ∧
      w.isStale (s.perform operation).store = w.isStale s.store ∧
      (w.current (s.perform operation).store).1 = (w.current s.store).1 := by
  have hview := hs.paired.view?_eq hv
  have hmark := hs.paired.mark_ne hv hw hne
  simp only [List.mem_cons, List.not_mem_nil, or_false] at h
  rcases h with rfl | rfl | rfl
  · rw [perform, hview]
    exact hs.same_of_unmoved (.asked hv) hw (mem_views_asked_of_ne hw hne)
      (LiveView.unmoved_current hmark)
  · rw [perform, hview]
    exact hs.same_of_unmoved (.detached hv) hw (mem_views_filter.2 ⟨hw, hne⟩)
      (LiveView.unmoved_detach hmark hne)
  · rw [perform, hview]
    exact hs.same_of_unmoved (.dropped hv) hw (mem_views_filter.2 ⟨hw, hne⟩)
      (LiveView.unmoved_drop hmark)

/-- The listener of a view that was dropped is gone once the data have changed. -/
theorem Paired.gone_of_dropped (hs : Paired s) (hv : v ∈ s.views)
    {operations : List (Operation O σ)}
    (h : .changed p value ∈ (s.dropped v).history operations) :
    v.listener ∉ ((s.dropped v).run operations).store.ids := by
  have hstart : Fading v.listener [] (s.dropped v) :=
    ⟨hs.does (.dropped hv), Store.leaving_drop hs.kept (hs.attached v hv),
      fun _ _ hmem => absurd hmem List.not_mem_nil⟩
  have hfading := ((s.dropped v).happens_run operations).preserves
    (P := Fading v.listener) Fading.does hstart
  exact hfading.gone p value h

theorem InStep.live (hs : InStep events s) (hv : v ∈ s.views) : Live events s v := by
  have hupToDate := hs.upToDate v hv
  have hview := hs.paired.view?_eq hv
  constructor
  case pass => exact hupToDate.pass
  case stale_iff => exact hupToDate.stale_iff
  case current_eq => exact v.current_eq_currentBy s.store
  case renders =>
    exact fun count hdue => LiveView.run_counting_of_stale (hupToDate.stale_iff.2 hdue) count
  case rests =>
    intro count hdue
    rw [← hupToDate.stale_iff, Bool.not_eq_true] at hdue
    exact LiveView.run_counting_of_not_stale hdue count
  case others => exact fun w hw hne operation h => hs.others hv hw hne h
  case detach =>
    rw [perform, hview]
    exact LiveView.detach_listeners hs.paired.kept (hs.paired.attached v hv)
  case drop =>
    intro operations p value
    rw [perform, hview]
    exact hs.paired.gone_of_dropped hv

end Session

/-- Whatever happens in a session, every view answers with a fresh pass, and renders only when it was
never asked or the data have changed since. -/
theorem Session.views_live {O σ : Type} (data : Value) (rest : σ)
    (operations : List (Operation O σ)) :
    Happens Does (start data rest) ((start data rest).history operations)
      ((start data rest).run operations) ∧
    ∀ v ∈ ((start data rest).run operations).views,
      Live ((start data rest).history operations) ((start data rest).run operations) v := by
  have hhappens := (start data rest).happens_run operations
  have hinStep := hhappens.preserves (P := InStep) InStep.does (.start data rest)
  exact ⟨hhappens, fun v hv => hinStep.live hv⟩

namespace Sample

/-- The page is looked at, and then something is written. -/
def glance : List (Session.Operation String Unit) :=
  [.attach page verified, .current ⟨1⟩, .write itemName (.string "disk")]

end Sample

/-- Another look renders the page once. -/
theorem Session.views_live_page :
    let s := (start .emptyObject ()).run Sample.glance
    ∃ v, s.views = [v] ∧ v.isStale s.store = true ∧
      (v.currentBy LiveView.counting s.store).run 0 = (v.current s.store, 1) ∧
      (v.current s.store).1 = Sample.page.render Sample.verified s.store := by
  intro s
  obtain ⟨v, hviews, hlistener, htree, hregistry⟩ : ∃ v, s.views = [v] ∧ v.listener = ⟨1⟩ ∧
      v.tree = Sample.page ∧ v.registry = Sample.verified := ⟨_, rfl, rfl, rfl, rfl⟩
  have hlive := (views_live .emptyObject () Sample.glance).2 v (hviews ▸ List.mem_cons_self)
  have hdue : Due v.listener ((start .emptyObject ()).history Sample.glance) :=
    .inr ⟨[.attached ⟨1⟩, .asked ⟨1⟩], _, _, [], rfl, List.not_mem_nil⟩
  refine ⟨v, hviews, hlive.stale_iff.2 hdue, hlive.renders 0 hdue, ?_⟩
  rw [← htree, ← hregistry]
  exact hlive.pass

end CatalogUi

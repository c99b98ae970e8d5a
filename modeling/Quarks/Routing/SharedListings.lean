import Quarks.Routing.SameService

/-!
# Shared routes that list

The callbacks that have a window. Over TCP it has been read when the callback is called, over
HTTP a text that is no number brings the callback down.
-/

namespace Quarks

open Basis

namespace Routing

/-! ## What a printed listing tells -/

section

variable {es es' : List Entry} {r r' : Bool × List WValue}

/-- The results of a listing name the keys of its entries, in their order. -/
theorem keys_of_collect (h : collect keyedItems es = .ok r) : (∀ w ∈ r.2, w.Distinct) ∧
    r.2.filterMap (fun w => w.field? (ascii "key")) = es.map fun e => .string e.1 := by
  induction es generalizing r with
  | nil =>
    cases h
    exact ⟨fun w hw => (by cases hw), rfl⟩
  | cons e es ih =>
    obtain ⟨first, hfirst, h⟩ := of_bind_ok h
    obtain ⟨rest, hrest, h⟩ := of_bind_ok h
    cases h
    obtain ⟨hdistinct, hkeys⟩ := ih hrest
    have hitems : (∀ w ∈ first.2, w.Distinct) ∧
        first.2.filterMap (fun w => w.field? (ascii "key")) = [.string e.1] := by
      unfold keyedItems at hfirst
      split at hfirst
      · next v _ =>
        cases hfirst
        have hkey : (keyed e.1 v).field? (ascii "key") = some (.string e.1) := by
          rw [keyed, WValue.field?_set, if_pos rfl]
        refine ⟨fun w hw => ?_, by simp [hkey]⟩
        rw [List.mem_singleton.mp hw]
        exact (distinct_set _ _).set _ _
      · split at hfirst
        · cases hfirst
          have herror : (WValue.null.set (ascii "error") (.string e.2)).field? (ascii "key") =
              none := by
            rw [WValue.field?_set, if_neg (by decide)]
            rfl
          have hkey : (WValue.null.set (ascii "key") (.string e.1)).field? (ascii "key") =
              some (.string e.1) := by
            rw [WValue.field?_set, if_pos rfl]
          refine ⟨fun w hw => ?_, by simp [herror, hkey]⟩
          rcases List.mem_pair.mp hw with rfl | rfl <;> exact distinct_set _ _
        · cases hfirst
    refine ⟨fun w hw => ?_, ?_⟩
    · exact (List.mem_append.mp hw).elim (hitems.1 w) (hdistinct w)
    · rw [List.filterMap_append, hitems.2, hkeys]
      rfl

/-- Loading the printed results gives the keys back. -/
theorem keys_of_reread [HashOrder] (h : collect keyedItems es = .ok r) :
    (r.2.map reread).filterMap (fun y => (y.field (ascii "key")).toOption) =
      es.map fun e => .string (escape e.1) := by
  obtain ⟨hdistinct, hkeys⟩ := keys_of_collect h
  have hread : (r.2.map reread).filterMap (fun y => (y.field (ascii "key")).toOption) =
      (r.2.filterMap fun w => w.field? (ascii "key")).map reread := by
    rw [List.filterMap_map, List.map_filterMap]
    exact List.filterMap_congr fun w hw => toOption_field_reread (hdistinct w hw) _
  rw [hread, hkeys, List.map_map]
  exact List.map_congr_left fun e _ => by simp [reread]

/-- Listings that are printed alike have the same keys. -/
theorem keys_eq_of_dump [HashOrder] (h : collect keyedItems es = .ok r)
    (h' : collect keyedItems es' = .ok r') (hdump : dump (queryAnswer r) = dump (queryAnswer r')) :
    es.map Prod.fst = es'.map Prod.fst := by
  have hresults := map_reread_field? (queryAnswer_fields r).1 (queryAnswer_fields r').1 hdump
    (ascii "result")
  rw [(queryAnswer_fields r).2, (queryAnswer_fields r').2] at hresults
  have hlists := Option.some.inj hresults
  rw [reread_list, reread_list] at hlists
  have htexts := keys_of_reread h
  rw [RValue.list.inj hlists, keys_of_reread h'] at htexts
  have hunescape := congrArg (List.map fun y : RValue => y.s.toOption.getD []) htexts
  simpa [Function.comp_def, RValue.s, Except.toOption] using hunescape.symm

/-- Entries of a store are told by their keys. -/
theorem entries_eq_of_keys {store : Store} (hes : ∀ e ∈ es, e ∈ store.entries)
    (hes' : ∀ e ∈ es', e ∈ store.entries) (h : es.map Prod.fst = es'.map Prod.fst) : es = es' := by
  have hread : ∀ {l : List Entry}, (∀ e ∈ l, e ∈ store.entries) →
      (l.map Prod.fst).map (fun key => (key, (store.find? key).getD [])) = l := by
    intro l hl
    rw [List.map_map]
    refine (List.map_congr_left fun e he => ?_).trans (List.map_id l)
    have hfind : store.find? e.1 = some e.2 := OrderedMap.find?_eq_some.mpr (hl e he)
    simp [hfind]
  rw [← hread hes, ← hread hes', h]

end

/-- The window of a request of the HTTP interface can be read. -/
def WindowReads (req : HttpRouter.Request) : Prop :=
  ∃ win, (HttpRouter.QueryParams.parse req).window = .ok win

theorem not_windowReads {req : HttpRouter.Request} {f : Failure}
    (h : (HttpRouter.QueryParams.parse req).window = .error f) : ¬WindowReads req := by
  rintro ⟨win, hwin⟩
  rw [h] at hwin
  cases hwin

section

variable [HashOrder] [UnstableSort] {c : Config} {outside : Outside} {n : Node} {request : Bytes}
  {route : Bytes} {req : HttpRouter.Request} {x : RValue} (hmirrors : Mirrors route req x)
  (hload : load request = some x)
include hmirrors hload

/-! ## Listings -/

omit hmirrors hload [HashOrder] [UnstableSort] in
/-- A window that cannot be read brings the callback of the HTTP interface down. -/
theorem always_unreadable {α : Type} {k : Window → CoreM α} {g : Bytes → α}
    (hwindow : ¬WindowReads req) :
    (catchWhat (do
      let win ← ofExcept (HttpRouter.QueryParams.parse req).window
      k win) g).Always (fun _ => False) fun _ => True := by
  cases hread : (HttpRouter.QueryParams.parse req).window with
  | ok win => exact absurd ⟨win, hread⟩ hwindow
  | error f =>
    have hf := window_error hread
    cases f with
    | runtimeError what => cases hf
    | _ => exact trivial

/-- A request without a pattern is refused, and one with a pattern needs a window. -/
def PatternReads (req : HttpRouter.Request) : Prop :=
  (HttpRouter.QueryParams.parse req).wild = [] ∨ WindowReads req

omit hmirrors hload [HashOrder] [UnstableSort] in
/-- Behind the pattern both interfaces go on with the same window. -/
theorem onPattern_eq {α : Type} {r : Request} {refused : CoreM α} {k : Window → CoreM α}
    (hreads : ReadsAlike route req r) (hpattern : PatternReads req) :
    (if (HttpRouter.QueryParams.parse req).wild = [] then refused else do
      let win ← ofExcept (HttpRouter.QueryParams.parse req).window
      k win) =
      if (HttpRouter.QueryParams.parse req).wild = [] then refused else k r.window := by
  split
  · rfl
  · next hwild =>
    obtain ⟨win, hwin⟩ := hpattern.resolve_left hwild
    rw [hwin, ← hreads.window win hwin]
    rfl

/-- Without a pattern the window is not read. -/
theorem servesAlike_getkeys (hroute : route = ascii "/getkeys") :
    ServesAlike n (dispatch c outside request) (HttpRouter.routeCoreGetkeysCallback c req) ↔
      IsAnswered c n request ∧ IsAccepted x ∧ PatternReads req := by
  subst hroute
  refine servesAlike_iff_of_eq hmirrors hload ?_ (fun r hmake hreads hC => ?_) fun hC => ?_
  · refine (always_catchWhat (E := fun _ => True) ?_ fun what => ?_).mono (fun _ h => h)
      fun _ _ => trivial
    · dsimp only
      split
      · exact Prog.Always.pure (by decide +kernel)
      · have hlisted := fun win => always_listedText c req.reverse
          (HttpRouter.QueryParams.parse req).wild win
        simp only [listedText_eq] at hlisted
        exact (always_ofExcept_any _).bind fun win _ =>
          (hlisted win).mono (fun _ h => h.ne_dispatchError) fun _ _ => trivial
    · exact dump_ne_of_other ((distinct_set _ _).set _ _)
        (by rw [WValue.field?_set, if_pos rfl]) (show ascii "result" ≠ ascii "error" by decide)
  · rw [dispatch_string (routeCoreGetkeysCallback c) hmake hreads rfl rfl]
    refine (catchWhat_catchWhat _ _ _).trans ?_
    unfold HttpRouter.routeCoreGetkeysCallback
    rw [onPattern_eq hreads hC, hreads.wild, hreads.reverse]
    rfl
  · obtain ⟨hwild, hwindow⟩ := not_or.mp hC
    unfold HttpRouter.routeCoreGetkeysCallback
    simp only [if_neg hwild]
    exact always_unreadable hwindow

theorem servesAlike_getcount (hroute : route = ascii "/getcount") :
    ServesAlike n (dispatch c outside request) (HttpRouter.routeCoreGetcountCallback c req) ↔
      IsAnswered c n request ∧ IsAccepted x ∧ PatternReads req := by
  subst hroute
  refine servesAlike_iff_of_eq hmirrors hload ?_ (fun r hmake hreads hC => ?_) fun hC => ?_
  · refine (always_catchWhat_of_passes _ ?_).mono (fun _ h => h) fun _ _ => trivial
    dsimp only
    split
    · exact Prog.Always.pure (by decide +kernel)
    · refine (always_window _).bind fun win _ => (always_getCount c _ 0 win).bind fun r _ => ?_
      split
      · exact Prog.Always.pure (toString_ne_dispatchError r.2)
      · exact Prog.Always.pure (by decide +kernel)
  · rw [dispatch_string (routeCoreGetcountCallback c) hmake hreads rfl rfl]
    refine (catchWhat_catchWhat _ _ _).trans ?_
    unfold HttpRouter.routeCoreGetcountCallback
    rw [onPattern_eq hreads hC, hreads.wild]
    rfl
  · obtain ⟨hwild, hwindow⟩ := not_or.mp hC
    unfold HttpRouter.routeCoreGetcountCallback
    simp only [if_neg hwild]
    exact always_unreadable hwindow

omit hmirrors hload [UnstableSort] in
theorem always_removekeys : (HttpRouter.routeCoreRemovekeysCallback c req).Always
    (fun w => dump w ≠ dispatchError) PassesBarrier := by
  refine always_catchWhat_of_passes _ ?_
  dsimp only
  split
  · exact Prog.Always.pure (dump_ne_of_error (distinct_set _ _)
      (by rw [WValue.field?_set, if_pos rfl]) (by decide +kernel))
  · refine (always_window _).bind fun win _ =>
      (always_harmless (always_removeAll c _ win)).bind fun n _ => Prog.Always.pure ?_
    exact dump_ne_of_other (distinct_set _ _) (by rw [WValue.field?_set, if_pos rfl])
      (show ascii "result" ≠ ascii "error" by decide)

theorem servesAlike_removeall (hroute : route = ascii "/removeall") :
    ServesAlike n (dispatch c outside request)
        (HttpRouter.printed (HttpRouter.routeCoreRemovekeysCallback c req)) ↔
      IsAnswered c n request ∧ IsAccepted x ∧ PatternReads req := by
  subst hroute
  refine servesAlike_iff_of_eq hmirrors hload ?_ (fun r hmake hreads hC => ?_) fun hC => ?_
  · exact always_printed (always_removekeys.mono (fun _ h => h) fun _ _ => trivial) fun _ h => h
  · have hsame : routeCoreRemovekeysCallback c r =
        HttpRouter.routeCoreRemovekeysCallback c req := by
      unfold routeCoreRemovekeysCallback HttpRouter.routeCoreRemovekeysCallback
      rw [onPattern_eq hreads hC, hreads.wild]
      rfl
    rw [dispatch_json (routeCoreRemovekeysCallback c) hmake hreads rfl rfl, hsame,
      catchWhat_printed always_removekeys]
  · obtain ⟨hwild, hwindow⟩ := not_or.mp hC
    unfold HttpRouter.printed HttpRouter.routeCoreRemovekeysCallback
    simp only [if_neg hwild]
    exact (always_unreadable hwindow).bind fun _ h => h.elim

/-! ## The whole database -/

/-- The listing of the whole database in one of its orders. -/
def iterated (c : Config) (reversed : Bool) (win : Window) : CoreM WValue :=
  (if reversed then iterReversed c win else iter c win) >>= fun r => return queryAnswer r

/-- The entries of the database in one of its orders. -/
def entriesIn (n : Node) (reversed : Bool) : List Entry :=
  if reversed then n.db.entries.reverse else n.db.entries

/-- The whole database is listed alike if the window can be read, and takes the same entries in
the order that is asked for and in the order of the keys, to which TCP is bound. -/
def IterAgrees (c : Config) (n : Node) (req : HttpRouter.Request) : Prop :=
  ∃ win, (HttpRouter.QueryParams.parse req).window = .ok win ∧ (c.dbOk = true →
    scan (fun _ => true) win (entriesIn n req.reverse) = scan (fun _ => true) win n.db.entries)

omit hmirrors hload [UnstableSort] in
theorem always_iterated (reversed : Bool) (win : Window) : (iterated c reversed win).Always
    (fun w => dump w ≠ dispatchError) PassesBarrier := by
  refine Prog.Always.bind (P := fun _ => True) ?_ fun r _ =>
    Prog.Always.pure (dump_queryAnswer_ne r)
  split
  · exact always_iterReversed c win
  · exact always_iter c win

omit hmirrors hload [UnstableSort] in
theorem iterated_yields {faults : Faults} (hdb : c.dbOk = true) (reversed : Bool) (win : Window) :
    Yields faults n (HttpRouter.printed (iterated c reversed win))
      ((collect keyedItems (scan (fun _ => true) win (entriesIn n reversed))).bind fun r =>
        .ok (dump (queryAnswer r))) := by
  have hlisted : Yields faults n (if reversed then iterReversed c win else iter c win)
      (collect keyedItems (scan (fun _ => true) win (entriesIn n reversed))) := by
    cases reversed with
    | false =>
      rw [if_neg Bool.false_ne_true, iter, if_pos hdb]
      simp only [OrderedMap.forward_seekToFirst]
      exact Yields.bind_ok Yields.dbIterate (Yields.ofExcept _)
    | true =>
      rw [if_pos rfl, iterReversed, if_pos hdb]
      simp only [OrderedMap.backward_seekToLast]
      exact Yields.bind_ok Yields.dbIterate (Yields.ofExcept _)
  unfold HttpRouter.printed iterated
  rw [bind_assoc]
  exact hlisted.bind fun r _ => (Yields.pure _).bind_ok (Yields.pure _)

omit hmirrors hload [UnstableSort] in
/-- Both orders are listed alike only if the window takes the same entries of them. -/
theorem iterated_eq_of_servesAlike {win : Window} {reversed : Bool} (hdb : c.dbOk = true)
    (h : ServesAlike n (HttpRouter.printed (iterated c false win))
      (HttpRouter.printed (iterated c reversed win))) :
    scan (fun _ => true) win (entriesIn n reversed) = scan (fun _ => true) win n.db.entries := by
  obtain ⟨payload, hp, hq, -⟩ := h noFaults (freshWorld n) rfl
  have hforward := (iterated_yields hdb false win _ rfl).1.symm.trans hp
  have hordered := (iterated_yields hdb reversed win _ rfl).1.symm.trans hq
  obtain ⟨r, hr, hforward⟩ := of_bind_ok hforward
  obtain ⟨r', hr', hordered⟩ := of_bind_ok hordered
  have hdump : dump (queryAnswer r') = dump (queryAnswer r) :=
    (Except.ok.inj hordered).trans (Except.ok.inj hforward).symm
  have hsubset : ∀ l : List Entry, ∀ e ∈ scan (fun _ => true) win l, e ∈ l := fun l e he =>
    List.mem_of_mem_filter ((scan_sublist_filter l).subset he)
  have hentries : ∀ e ∈ scan (fun _ => true) win (entriesIn n reversed), e ∈ n.db.entries := by
    intro e he
    have hmem := hsubset _ e he
    unfold entriesIn at hmem
    split at hmem
    · exact List.mem_reverse.mp hmem
    · exact hmem
  exact entries_eq_of_keys hentries (hsubset n.db.entries) (keys_eq_of_dump hr' hr hdump)

/-- The direction is looked at over HTTP only. -/
theorem servesAlike_iter (hroute : route = ascii "/iter") :
    ServesAlike n (dispatch c outside request)
        (HttpRouter.printed (HttpRouter.routeCoreIterCallback c req)) ↔
      IsAnswered c n request ∧ IsAccepted x ∧ IterAgrees c n req := by
  subst hroute
  have hhttp : ∀ win, (HttpRouter.QueryParams.parse req).window = .ok win →
      HttpRouter.routeCoreIterCallback c req = iterated c req.reverse win := by
    intro win hwin
    have hcallback := catchWhat_eq (g := jsonError []) (always_iterated (c := c) req.reverse win)
    rw [← hcallback]
    unfold HttpRouter.routeCoreIterCallback iterated
    rw [hwin]
    cases req.reverse <;> rfl
  have hdispatch : ∀ r, Request.make request = .ok r → ReadsAlike (ascii "/iter") req r →
      dispatch c outside request = HttpRouter.printed (iterated c false r.window) := by
    intro r hmake hreads
    have hcallback : routeCoreIterCallback c r = iterated c false r.window :=
      catchWhat_eq (always_iterated (c := c) false r.window)
    rw [dispatch_json (routeCoreIterCallback c) hmake hreads rfl rfl, hcallback,
      catchWhat_printed (always_iterated false r.window)]
  have hdown : ¬WindowReads req →
      (HttpRouter.routeCoreIterCallback c req).Always (fun _ => False) fun _ => True :=
    fun h => always_unreadable h
  refine servesAlike_iff hmirrors hload ?_ (fun r hmake hreads hanswered hagrees => ?_)
    fun r hmake hreads hdiffers => ?_
  · cases hwin : (HttpRouter.QueryParams.parse req).window with
    | error f =>
      exact always_printed ((hdown (not_windowReads hwin)).mono (fun _ h => h.elim)
        fun _ _ => trivial) fun _ h => h
    | ok win =>
      rw [hhttp win hwin]
      exact always_printed ((always_iterated req.reverse win).mono (fun _ h => h)
        fun _ _ => trivial) fun _ h => h
  · obtain ⟨win, hwin, hscan⟩ := hagrees
    have heq := hdispatch r hmake hreads
    rw [← hreads.window win hwin] at heq
    rw [hhttp win hwin]
    cases hdb : c.dbOk with
    | true =>
      refine servesAlike_of_yields hmirrors hload (fun faults => ?_)
        (fun faults => iterated_yields hdb req.reverse win) hanswered
      rw [heq, hscan hdb]
      exact iterated_yields hdb false win
    | false =>
      have hclosed : ∀ reversed, iterated c reversed win = pure (queryAnswer (false, [])) := by
        intro reversed
        unfold iterated iter iterReversed
        rw [hdb]
        cases reversed <;> rfl
      refine servesAlike_of_eq hmirrors hload ?_ hanswered
      rw [heq, hclosed, hclosed]
  · cases hwin : (HttpRouter.QueryParams.parse req).window with
    | error f =>
      exact not_servesAlike (Prog.Always.any _) (always_printed (Q := fun _ => False)
        (hdown (not_windowReads hwin)) fun _ h => h.elim) fun _ _ h => h
    | ok win =>
      rw [hdispatch r hmake hreads, hhttp win hwin, ← hreads.window win hwin]
      intro h
      exact hdiffers ⟨win, hwin, fun hdb => iterated_eq_of_servesAlike hdb h⟩

/-! ## Lists of keys -/

omit hmirrors hload [HashOrder] [UnstableSort] in
/-- A window that cannot be read brings a query on a value down. -/
theorem always_withBody_unreadable {α : Type} {missing : α} {query : RValue → Window → CoreM α}
    (h : ¬(load req.bodyText = none ∨ WindowReads req)) :
    (req.withBody missing fun v => do
      let win ← ofExcept (HttpRouter.QueryParams.parse req).window
      query v win).Always (fun _ => False) fun _ => True := by
  obtain ⟨hbody, hwindow⟩ := not_or.mp h
  obtain ⟨v, hv⟩ := Option.ne_none_iff_exists'.mp hbody
  unfold HttpRouter.Request.withBody
  rw [hv]
  cases hread : (HttpRouter.QueryParams.parse req).window with
  | ok win => exact absurd ⟨win, hread⟩ hwindow
  | error f => exact trivial

omit hmirrors hload [HashOrder] [UnstableSort] in
/-- If there is a document, both interfaces go on with its value and the same window. -/
theorem withBody_window_eq {α : Type} {r : Request} {missing : α}
    (query : RValue → Window → CoreM α) (hreads : ReadsAlike route req r)
    (h : load req.bodyText = none ∨ WindowReads req) :
    (withBody r missing fun v => query v r.window) = (req.withBody missing fun v => do
      let win ← ofExcept (HttpRouter.QueryParams.parse req).window
      query v win) := by
  refine withBody_eq hreads fun v hv => ?_
  obtain ⟨win, hwin⟩ := h.resolve_left (by simp [hv])
  rw [hwin, ← hreads.window win hwin]
  rfl

/-- Over HTTP the window is read only if there is a document. -/
theorem servesAlike_getlist (hroute : route = ascii "/getlist") :
    ServesAlike n (dispatch c outside request) (HttpRouter.routeCoreGetlistCallback c req) ↔
      IsAnswered c n request ∧ IsAccepted x ∧ (load req.bodyText = none ∨ WindowReads req) := by
  subst hroute
  have hanswers : (HttpRouter.routeCoreGetlistCallback c req).Always (· ≠ dispatchError)
      PassesBarrier := by
    exact always_withBody (by decide +kernel) fun v => (always_window _).bind fun win _ =>
      (always_getListText c v win).bind fun r hr => Prog.Always.pure hr.ne_dispatchError
  refine servesAlike_iff_of_eq hmirrors hload ?_ (fun r hmake hreads hC => ?_) fun hC => ?_
  · exact hanswers.mono (fun _ h => h) fun _ _ => trivial
  · have hsame : routeCoreGetlistCallback c r = HttpRouter.routeCoreGetlistCallback c req :=
      withBody_window_eq (fun v win => do return (← getListText c v [] win).2) hreads hC
    rw [dispatch_string (routeCoreGetlistCallback c) hmake hreads rfl rfl, hsame,
      catchWhat_eq hanswers]
  · exact always_withBody_unreadable hC

theorem servesAlike_getkeysafter (hroute : route = ascii "/getkeysafter") :
    ServesAlike n (dispatch c outside request)
        (HttpRouter.printed (HttpRouter.routeCoreGetkeysafterCallback c req)) ↔
      IsAnswered c n request ∧ IsAccepted x ∧ (load req.bodyText = none ∨ WindowReads req) := by
  subst hroute
  have hanswers : (HttpRouter.routeCoreGetkeysafterCallback c req).Always
      (fun w => dump w ≠ dispatchError) PassesBarrier := by
    exact always_withBody dump_invalidParameters_ne fun v => (always_window _).bind fun win _ =>
      (always_getKeysAfter c v win).bind fun r _ => Prog.Always.pure (dump_listAnswer_ne r)
  refine servesAlike_iff_of_eq hmirrors hload ?_ (fun r hmake hreads hC => ?_) fun hC => ?_
  · exact always_printed (hanswers.mono (fun _ h => h) fun _ _ => trivial) fun _ h => h
  · have hsame : routeCoreGetkeysafterCallback c r =
        HttpRouter.routeCoreGetkeysafterCallback c req :=
      withBody_window_eq (fun v win => do return listAnswer (← getKeysAfter c v win)) hreads hC
    rw [dispatch_json (routeCoreGetkeysafterCallback c) hmake hreads rfl rfl, hsame,
      catchWhat_printed hanswers]
  · exact (always_withBody_unreadable hC).bind fun _ h => h.elim

/-- The last keys have no window. -/
theorem servesAlike_getkeyslast (hroute : route = ascii "/getkeyslast") :
    ServesAlike n (dispatch c outside request)
        (HttpRouter.printed (HttpRouter.routeCoreGetkeyslastCallback c req)) ↔
      IsAnswered c n request ∧ IsAccepted x := by
  subst hroute
  have hanswers : (HttpRouter.routeCoreGetkeyslastCallback c req).Always
      (fun w => dump w ≠ dispatchError) PassesBarrier := by
    exact always_withBody dump_invalidParameters_ne fun v =>
      (always_getKeysLast c v).bind fun r _ => Prog.Always.pure (dump_listAnswer_ne r)
  refine servesAlike_iff_isAccepted hmirrors hload ?_ fun r hmake hreads => ?_
  · exact always_printed (hanswers.mono (fun _ h => h) fun _ _ => trivial) fun _ h => h
  · have hsame : routeCoreGetkeyslastCallback c r =
        HttpRouter.routeCoreGetkeyslastCallback c req := withBody_eq hreads fun v hv => rfl
    rw [dispatch_json (routeCoreGetkeyslastCallback c) hmake hreads rfl rfl, hsame,
      catchWhat_printed hanswers]

end

end Routing

end Quarks

import Tadis.Restart

/-!
# What closing a pool saves

`close` loads page 0 like any other page: it may write another page back to get a frame for it, and
it returns without a word when there is none. Only then does it write the dirty pages of the
directory. What is on file afterwards is compared with the pool before the call, where clients may
have called `fetch`, `new_page`, `unpin` and the flushes in any order and written into any frame.
-/

namespace Tadis.BufferPool

variable {n : ℕ} {s s' : BufferPool n}

/-- A call of a client, or its access to the bytes and the dirty flag of a page. -/
inductive ClientOp (n : ℕ)
  | call (op : PoolOp)
  | flushAllPage
  | write (f : Fin n) (buffer : PageBlock) (isDirty : Bool)

def applyClientOp (s : BufferPool n) : ClientOp n → BufferPool n
  | .call op => s.applyOp op
  | .flushAllPage => s.flushAllPage
  | .write f buffer isDirty => s.setPage f { s.pages f with buffer := buffer, dirty := isDirty }

/-- A fetched page lies at an offset of the file that does not wrap. -/
def FetchesAddressable : ClientOp n → Prop
  | .call (.fetch id) => Addressable id
  | _ => True

/-- Every cached page is in a frame that carries its id. -/
def CachesOwn (s : BufferPool n) : Prop := ∀ id f, s.dir.lookup id = some f → (s.pages f).pid = id

theorem CachesOwn.remapped (h : s.CachesOwn) {f : Fin n} {id : ℕ} (hr : s.Remapped s' f id) :
    s'.CachesOwn := by
  intro j g hj
  by_cases hji : j = id
  · rw [hji, hr.lookup_self] at hj
    rw [← Option.some.inj hj, hr.pid_self, hji]
  · by_cases hold : j = (s.pages f).pid
    · rw [hold, hr.lookup_old (hold ▸ hji)] at hj
      cases hj
    · rw [hr.lookup_of_ne j hji hold] at hj
      have hg : g ≠ f := by
        rintro rfl
        exact hold (h j g hj).symm
      rw [hr.pages_ne g hg]
      exact h j g hj

theorem CachesOwn.congr (h : s.CachesOwn) (hdir : s'.dir = s.dir)
    (hpid : ∀ f, (s'.pages f).pid = (s.pages f).pid) : s'.CachesOwn := by
  intro id f hf
  rw [hpid]
  exact h id f (hdir ▸ hf)

theorem CachesOwn.fetch (h : s.CachesOwn) (id : ℕ) : (s.fetch id).2.CachesOwn := by
  rcases s.fetch_cases id with ⟨f, _, hf⟩ | ⟨_, _, hf⟩ | ⟨f, free, lru, _, _, hf⟩
  · rw [hf]
    refine h.congr rfl fun g => ?_
    by_cases hg : g = f <;> simp [pinFrame, hg]
  · rw [hf]
    exact h
  · rw [hf]
    exact h.remapped (s.remapped_loadFrame f id free lru)

structure Closable (s : BufferPool n) : Prop where
  own : s.CachesOwn
  addressable : s.CachesAddressable
  bounded : s.BitmapBounded
  pageNum_ne : s.head.pageNum ≠ 0
  not_closed : s.closed = false

theorem Closable.congr (h : s.Closable) (hdir : s'.dir = s.dir)
    (hpid : ∀ f, (s'.pages f).pid = (s.pages f).pid) (hhead : s'.head = s.head)
    (hclosed : s'.closed = s.closed) : s'.Closable where
  own := h.own.congr hdir hpid
  addressable id f hf := h.addressable id f (hdir ▸ hf)
  bounded := by simpa only [BitmapBounded, hhead] using h.bounded
  pageNum_ne := by simpa only [hhead] using h.pageNum_ne
  not_closed := hclosed.trans h.not_closed

theorem Closable.fetch (h : s.Closable) {id : ℕ} (hid : Addressable id) :
    (s.fetch id).2.Closable where
  own := h.own.fetch id
  addressable := h.addressable.fetch hid
  bounded := by simpa only [BitmapBounded, fetch_head] using h.bounded
  pageNum_ne := by simpa only [fetch_head] using h.pageNum_ne
  not_closed := (fetch_closed id).trans h.not_closed

theorem Closable.newPage (h : s.Closable) : s.newPage.2.Closable := by
  have haddr := h.addressable.newPage h.bounded
  have hbound := h.bounded.newPage
  rcases s.newPage_cases with ⟨_, hf⟩ | ⟨id, f, free, lru, _, _, hf⟩
  · rw [hf]
    exact h.congr rfl (fun _ => rfl) rfl rfl
  · rw [hf] at haddr hbound ⊢
    refine ⟨h.own.remapped (s.remapped_allocFrame f id _ free lru), haddr, hbound, ?_, ?_⟩
    · rw [allocFrame_eq]
      exact Nat.succ_ne_zero _
    · rw [allocFrame_eq]
      exact h.not_closed

theorem unpin_pid (s : BufferPool n) (id : ℕ) (d : Bool) (f : Fin n) :
    ((s.unpin id d).pages f).pid = (s.pages f).pid := by
  cases hd : s.dir.lookup id with
  | none => rw [s.unpin_of_not_cached d hd]
  | some g =>
    rw [s.unpin_eq d hd]
    by_cases hg : f = g <;> simp [hg]

theorem flushPage_closed (s : BufferPool n) (id : ℕ) : (s.flushPage id).closed = s.closed := by
  unfold flushPage
  split <;> rfl

theorem Closable.applyClientOp (h : s.Closable) {op : ClientOp n} (ha : FetchesAddressable op) :
    (s.applyClientOp op).Closable := by
  cases op with
  | call op =>
    cases op with
    | fetch id => exact h.fetch ha
    | newPage => exact h.newPage
    | flushPage id =>
      exact h.congr (flushPage_dir s id) (fun f => by simp [BufferPool.applyClientOp, applyOp])
        (flushPage_head s id) (flushPage_closed s id)
    | unpin id d =>
      exact h.congr (unpin_dir s id d) (s.unpin_pid id d) (unpin_head s id d) (unpin_closed id d)
  | flushAllPage => exact h.congr rfl (fun _ => rfl) rfl rfl
  | write f b d =>
    refine h.congr rfl (fun g => ?_) rfl rfl
    by_cases hg : g = f <;> simp [BufferPool.applyClientOp, hg]

theorem closable_openFile {file : File} {s₀ : BufferPool n} (h : openFile n file = some s₀) :
    s₀.Closable := by
  obtain ⟨hframes, hbound⟩ := openFile_frameInv h
  cases n with
  | zero =>
    rw [openFile_zero] at h
    obtain rfl := Option.some.inj h
    exact ⟨fun _ f => f.elim0, fun _ f => f.elim0, hbound, Nat.one_ne_zero, rfl⟩
  | succ m =>
    rw [openFile_succ] at h
    obtain ⟨r, hi, rfl⟩ := Option.map_eq_some_iff.1 h
    refine ⟨fun id f hf => (hframes.pid_of_lookup hf).1, fun id f hf => ?_, hbound, ?_, rfl⟩
    · simp only [openedPool, lookup_singleton] at hf
      split_ifs at hf with h0
      exact h0 ▸ addressable_of_le (Nat.zero_le _)
    · rcases BFPHeaderPage.init_cases hi with ⟨_, q, _, rfl⟩ | ⟨h0, _, rfl⟩
      · exact Nat.one_ne_zero
      · exact h0

end Tadis.BufferPool

/-!
# Artifact names

An artifact name is one path component: it is not empty, names neither the directory itself nor
its parent, and holds no separator and no NUL.
-/

namespace SnapshotRetention.Store

/-- Whether a name can be an artifact's. -/
def isValidName (name : String) : Bool :=
  name ≠ "" && name ≠ "." && name ≠ ".." &&
    name.toList.all fun c => c ≠ '/' && c ≠ '\\' && c.toNat ≠ 0

end SnapshotRetention.Store

import ProtoSchema.Node.Basic

/-!
# Trees without comments

Comments carry no meaning, so a tree may be read with all of them taken out.

* `Node.withoutComments`: the tree without the comments below its top.
-/

namespace ProtoSchema.Node

mutual

/-- The tree without its comments; a comment at the top stays. -/
def withoutComments : Node → Node
  | ⟨kind, value, children⟩ => ⟨kind, value, withoutCommentsAll children⟩

/-- The trees that are no comments, each without its comments. -/
def withoutCommentsAll : List Node → List Node
  | [] => []
  | node :: rest =>
    if node.kind = .comment then withoutCommentsAll rest
    else withoutComments node :: withoutCommentsAll rest

end

end ProtoSchema.Node

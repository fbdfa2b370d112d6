import RoutePlugins.Project.Basic

/-!
# Excluded directories

The directories that hold no sources: version control, build output, installed packages and what
runs leave behind.
-/

namespace RoutePlugins

/-- The names of directories that hold no sources. -/
def excludedDirs : List Text :=
  [".git", ".hg", ".svn", ".next", ".turbo", ".vercel", ".output", "dist", "build", "out",
    "coverage", "node_modules", Project.dataDirName]

end RoutePlugins

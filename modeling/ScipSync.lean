import ScipSync.Basic.Dict
import ScipSync.Basic.Walk
import ScipSync.Graph.Transform
import ScipSync.Graph.Dfs
import ScipSync.Graph.DependencyGraph
import ScipSync.Basic.Regex
import ScipSync.Graph.Masks
import ScipSync.Action.Fragments
import ScipSync.Action.Join
import ScipSync.Action.PathResolution
import ScipSync.Action.Outputs
import ScipSync.Basic.Text
import ScipSync.Workspace.Store
import ScipSync.Workspace.Json
import ScipSync.Workspace.Persist
import ScipSync.Workspace.Populate
import ScipSync.Workspace.FileLinks
import ScipSync.Project.BazelProject
import ScipSync.Cache.CopyIndex
import ScipSync.Cache.Directory
import ScipSync.Sync.Main
import ScipSync.Sync.Session
import ScipSync.Bazel.Query

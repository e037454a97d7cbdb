import RcppUtils.Program.Concurrent
import RcppUtils.Text.FindAndReplace
import RcppUtils.Text.Pieces
import RcppUtils.Text.Join
import RcppUtils.Lifetime.ScopeExit
import RcppUtils.Lifetime.SharedLibrary
import RcppUtils.Traits.PointerTraits
import RcppUtils.Numeric.SignedRollingMean
import RcppUtils.Numeric.Time
import RcppUtils.Path.AppendInPlace
import RcppUtils.Path.RemoveExtension
import RcppUtils.Path.DriveRoot
import RcppUtils.Path.ParentPath
import RcppUtils.Path.Recompose
import RcppUtils.Path.Spelling
import RcppUtils.Posix.SystemCall
import RcppUtils.Filesystem.PathResolution
import RcppUtils.Filesystem.CreateDirectoriesAlone
import RcppUtils.Filesystem.CreateDirectoriesEquality
import RcppUtils.Filesystem.CreateTempDirectory
import RcppUtils.Filesystem.CreateTempDirectoryConcurrent
import RcppUtils.Filesystem.CreateTemporaryDirectory
import RcppUtils.Filesystem.RemoveAllTree
import RcppUtils.Filesystem.RemoveAllConfined
import RcppUtils.Filesystem.RemoveAllReturns
import RcppUtils.Filesystem.RemoveAllRetry
import RcppUtils.Filesystem.RemoveAllRestores
import RcppUtils.Filesystem.DirectoryStreams
import RcppUtils.Filesystem.FindLibrary
import RcppUtils.Expected.Lifetime
import RcppUtils.Expected.Contents

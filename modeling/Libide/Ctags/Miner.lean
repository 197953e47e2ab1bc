import Libide.Ctags.Preorder
import Libide.Ctags.Service

/-! # The miner thread

`ide_ctags_service_miner` (`ide-ctags-service.c`) walks three roots one after the other with the
session's cancellable: the project's working directory, recursively; the home directory, for its own
`tags` file only; and `/usr/include`, recursively. The walks share nothing, and no path is
canonicalised, so a tags file that two roots reach, or that one root reaches through a symbolic link
and another directly, is loaded once for each path that reaches it. The index cache of
`ide_ctags_service_init` is keyed by `g_file_hash` and `g_file_equal` on those paths: two paths of one
file are two keys, and each is built and handed to `ide_ctags_completion_provider_add_index`. -/

namespace Libide.Ctags

end Libide.Ctags

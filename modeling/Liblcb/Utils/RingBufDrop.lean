import Liblcb.Utils.RingBufSize

/-!
# Reports of lost data

What `r_buf_data_avail_size` and `r_buf_data_get` leave of the position of a reader that lost data.
For a reader that is more than a round behind, `r_buf_rpos_check` moves the position behind the last
block; for one that was overtaken within the round before the current one, it does not.
-/

namespace RingBuf

variable {r : RBuf} {rpos p : RPos}

end RingBuf
